import DdsAuto.Asio.IdHeader
import DdsAuto.Lib.JsonCpp

/-!
# Answering a message

`HelloWorldCallBack`, and the same statements inside `HandleRead` of
MsgJsonIDServer: parse the body, read `id` and `data`, send the body back with
`data` replaced. `answer_iff` and `sendString_returned_iff` say when this comes to its
end without an exception.
-/

namespace DdsAuto.Asio

open CInt Json

def ascii (s : String) : List UInt8 := s.toList.map fun c => UInt8.ofNat c.toNat

abbrev idKey : Key := ascii "id"

abbrev dataKey : Key := ascii "data"

def receivedMsg : List UInt8 := ascii "server has received msg, msg data is "

/-- From `reader.parse` to the arguments of `Send`; `none` is an exception. -/
def answer (J : JsonCpp) (msgData : List UInt8) : Option (List UInt8 × Int) := do
  let root ← J.parse msgData
  let (root, id) ← root.index idKey
  let _ ← J.asInt id
  let (root, data) ← root.index dataKey
  let _ ← J.asString data
  let (root, data) ← root.index dataKey
  let text ← J.asString data
  let root ← root.assign dataKey (.string (receivedMsg ++ text))
  let returnStr := J.toStyledString root
  let (_, id) ← root.index idKey
  let msgId ← J.asInt id
  return (returnStr, msgId)

/-- How `Send` ends; the queue is the session's `_send_que`. -/
inductive Sent
  | returned (sendQue : List SendNode)
  | threw
  | crashed

/-- `Send(std::string, short)`: the length is converted to `short` on the way to
`SendNode`, whose block has `room` bytes more. -/
def sendString (room : Int) (sendQue : List SendNode) (msg : List UInt8) (msgid : Int) : Sent :=
  if sendQue.length > maxSendque then .returned sendQue
  else
    match SendNode.new room msg (toShort msg.length) (toShort msgid) with
    | .ok node => .returned (sendQue ++ [node])
    | .error .badArrayNewLength => .threw
    | .error .wildCopy => .crashed

def helloWorldCallBack (J : JsonCpp) (room : Int) (sendQue : List SendNode)
    (msgData : List UInt8) : Sent :=
  match answer J msgData with
  | none => .threw
  | some (returnStr, msgId) => sendString room sendQue returnStr msgId

-- ---------------------------------------------------------------------------
-- When it returns
-- ---------------------------------------------------------------------------

/-- The members of the answer to a body with the members `ms`. -/
def answered (J : JsonCpp) (ms : List (Key × Value J.Real)) (text : List UInt8) :
    List (Key × Value J.Real) :=
  Value.insert dataKey (.string (receivedMsg ++ text)) (Value.touch dataKey (Value.touch dataKey
    (Value.touch idKey ms)))

/-- The body parses to a null or an object whose `id` converts to an `Int` and
whose `data` to a string, both counting as null where missing. -/
structure Answers (J : JsonCpp) (msgData returnStr : List UInt8) (msgId : Int)
    (root : Value J.Real) (ms : List (Key × Value J.Real)) (text : List UInt8) : Prop where
  parsed : J.parse msgData = some root
  indexable : root.members = some ms
  id : J.asInt ((Value.lookup idKey ms).getD .null) = some msgId
  data : J.asString ((Value.lookup dataKey ms).getD .null) = some text
  returnStr : returnStr = J.toStyledString (.object (answered J ms text))

section
variable {J : JsonCpp} {msgData returnStr : List UInt8} {msgId : Int}

theorem lookup_answered (ms : List (Key × Value J.Real)) (text : List UInt8) :
    (Value.lookup idKey (answered J ms text)).getD .null = (Value.lookup idKey ms).getD .null := by
  have hne : dataKey ≠ idKey := by decide
  rw [answered, Value.lookup_insert, if_neg hne, Value.lookup_touch, Value.lookup_touch,
    Value.lookup_touch]

theorem answer_members {root : Value J.Real} (hp : J.parse msgData = some root)
    (hm : root.members = some ms) :
    answer J msgData = (J.asInt ((Value.lookup idKey ms).getD .null)).bind fun msgId =>
      (J.asString ((Value.lookup dataKey ms).getD .null)).map fun text =>
        (J.toStyledString (.object (answered J ms text)), msgId) := by
  have hobj (ms : List (Key × Value J.Real)) (key : Key) :
      (Value.object ms).index key = _ := Value.index_some rfl key
  simp only [answer, hp, Value.index_some hm, hobj, Value.assign, Option.bind_eq_bind,
    Option.bind_some, Value.lookup_touch]
  cases hi : J.asInt ((Value.lookup idKey ms).getD .null) with
  | none => rfl
  | some msgId =>
    cases hd : J.asString ((Value.lookup dataKey ms).getD .null) with
    | none => rfl
    | some text =>
      have hid := lookup_answered ms text
      rw [answered] at hid
      simp only [Option.bind_some, hid, hi]
      rfl

theorem answer_iff : answer J msgData = some (returnStr, msgId) ↔
    ∃ root ms text, Answers J msgData returnStr msgId root ms text := by
  constructor
  · intro h
    cases hp : J.parse msgData with
    | none => simp [answer, hp] at h
    | some root =>
      cases hm : root.members with
      | none => simp [answer, hp, Value.index_none hm] at h
      | some ms =>
        rw [answer_members hp hm] at h
        obtain ⟨i, hi, h⟩ := Option.bind_eq_some_iff.mp h
        obtain ⟨text, hd, h⟩ := Option.map_eq_some_iff.mp h
        cases h
        exact ⟨root, ms, text, hp, hm, hi, hd, rfl⟩
  · rintro ⟨root, ms, text, hp, hm, hi, hd, rfl⟩
    rw [answer_members hp hm, hi, hd]
    rfl

/-- The answer's length, as a `short`, is not negative and leaves room for the
header. -/
def Fits (room : Int) (msg : List UInt8) : Prop :=
  0 ≤ toShort msg.length ∧ toShort msg.length + room ≤ 32767

theorem sendString_returned_iff (hroom : 0 ≤ room ∧ room ≤ 4) (sendQue : List SendNode)
    (msg : List UInt8) (msgid : Int) :
    (∃ sendQue', sendString room sendQue msg msgid = .returned sendQue') ↔
      maxSendque < sendQue.length ∨ Fits room msg := by
  unfold sendString
  by_cases hfull : sendQue.length > maxSendque
  · rw [if_pos hfull]
    exact ⟨fun _ => .inl hfull, fun _ => ⟨_, rfl⟩⟩
  · rw [if_neg hfull]
    have hnew := SendNode.new_ok_iff hroom (toShort_isShort msg.length) msg (toShort msgid)
    rw [or_iff_right hfull, Fits, ← hnew]
    constructor
    · rintro ⟨que', h⟩
      split at h
      · rename_i node hnode
        exact ⟨node, hnode⟩
      · cases h
      · cases h
    · rintro ⟨node, h⟩
      exact ⟨_, by rw [h]⟩

theorem helloWorld_returned_iff (hroom : 0 ≤ room ∧ room ≤ 4) (sendQue : List SendNode) :
    (∃ sendQue', helloWorldCallBack J room sendQue msgData = .returned sendQue') ↔
      ∃ returnStr msgId root ms text, Answers J msgData returnStr msgId root ms text ∧
        (maxSendque < sendQue.length ∨ Fits room returnStr) := by
  constructor
  · rintro ⟨que', h⟩
    unfold helloWorldCallBack at h
    split at h
    · cases h
    · rename_i returnStr msgId ha
      obtain ⟨root, ms, text, hans⟩ := answer_iff.mp ha
      exact ⟨returnStr, msgId, root, ms, text, hans,
        (sendString_returned_iff hroom sendQue returnStr msgId).mp ⟨que', h⟩⟩
  · rintro ⟨returnStr, msgId, root, ms, text, hans, hsend⟩
    have ha := answer_iff.mpr ⟨root, ms, text, hans⟩
    obtain ⟨que', h⟩ := (sendString_returned_iff hroom sendQue returnStr msgId).mpr hsend
    exact ⟨que', by simp only [helloWorldCallBack, ha, h]⟩

end

/-- JsonCpp on the texts `[]` and `{}`, and on the answer to the second. -/
def brackets : JsonCpp where
  Real := Empty
  realAsInt := nofun
  realAsString := nofun
  intAsString x := ascii (toString x)
  parse text :=
    if text = ascii "[]" then some (.array [])
    else if text = ascii "\x7b\x7d" then some (.object [])
    else some .null
  toStyledString _ :=
    ascii "\x7b\n\t\"data\" : \"server has received msg, msg data is \",\n\t\"id\" : null\n\x7d\n"

/-- The empty object is answered: its members count as null. -/
theorem answers_braces (hroom : room ≤ 4) : ∃ returnStr msgId root ms text,
    Answers brackets (ascii "\x7b\x7d") returnStr msgId root ms text ∧ Fits room returnStr := by
  refine ⟨_, 0, .object [], [], [], ⟨?_, rfl, rfl, rfl, rfl⟩, ?_⟩
  · have hne : ascii "\x7b\x7d" ≠ ascii "[]" := by decide +kernel
    simp only [brackets, if_neg hne, if_true]
  · have hlen :
        toShort (brackets.toStyledString (.object (answered brackets [] []))).length = 68 := by
      decide +kernel
    rw [Fits, hlen]
    omega

end DdsAuto.Asio
