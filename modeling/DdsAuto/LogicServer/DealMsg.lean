import DdsAuto.Asio.HelloWorld
import DdsAuto.LogicSystem.Dispatch

/-!
# One iteration of `DealMsg` on a message

What the worker of LogicServer02 does between `front()` and `pop()`, with the
callback and its failures. `DealMsg` runs as a thread and catches nothing, so an
exception ends the process with the message still queued. `dealing` puts the
iterations among the posts and the completed writes that come between them.
-/

namespace DdsAuto.LogicServer

open CInt Memory Json Asio Lts
open LogicSystem (LogicNode)

/-- The message queue and each session's `_send_que`. -/
structure Logic where
  msgQue : List LogicNode
  sendQues : Nat → List SendNode

/-- How an iteration ends: the loop goes on, the worker waits for a message, an
exception leaves `DealMsg`, or the process is gone. -/
inductive Dealt
  | next (s : Logic)
  | waits (s : Logic)
  | threw (s : Logic)
  | crashed

def Dealt.isNext : Dealt → Bool
  | .next _ => true
  | _ => false

/-- `std::string(_data, _cur_len)`. -/
def msgData (node : RecvNode) : List UInt8 := load node.data 0 (toSizeT node.curLen)

/-- The body of the loop; it is the same under `if (_b_stop)`. -/
def iteration (J : JsonCpp) (s : Logic) : Dealt :=
  match s.msgQue with
  | [] => .waits s
  | node :: rest =>
    let x := node.session
    if node.recvnode.msgId = msgHelloWord then
      match helloWorldCallBack J 4 (s.sendQues x) (msgData node.recvnode) with
      | .returned sendQue => .next { msgQue := rest, sendQues := Function.update s.sendQues x sendQue }
      | .threw => .threw s
      | .crashed => .crashed
    else .next { s with msgQue := rest }

/-- The message has no callback; or it is JSON with the members the callback
reads, and the answer is dropped for a full queue or can be framed. -/
def Survives (J : JsonCpp) (node : LogicNode) (sendQue : List SendNode) : Prop :=
  node.recvnode.msgId ≠ msgHelloWord ∨
    ∃ returnStr msgId root ms text,
      Answers J (msgData node.recvnode) returnStr msgId root ms text ∧
        (maxSendque < sendQue.length ∨ Fits 4 returnStr)

inductive DealLabel
  | post (node : LogicNode)
  | written (x : Nat)
  | deal

/-- The worker while it runs: others post messages and pop written frames. -/
def dealStep (J : JsonCpp) : Dealt → DealLabel → Option Dealt
  | .next s, .post node => some (.next { s with msgQue := s.msgQue ++ [node] })
  | .next s, .written x =>
    some (.next { s with sendQues := Function.update s.sendQues x (s.sendQues x).tail })
  | .next s, .deal => if s.msgQue = [] then none else some (iteration J s)
  | _, _ => none

def dealing (J : JsonCpp) : Lts Dealt DealLabel where
  init := .next { msgQue := [], sendQues := fun _ => [] }
  step := dealStep J

/-- Every message dealt with survives. -/
def DealsSurvive (J : JsonCpp) (d : Dealt) (a : DealLabel) : Prop :=
  ∀ s node rest, a = .deal → d = .next s → s.msgQue = node :: rest →
    Survives J node (s.sendQues node.session)

theorem iteration_iff {s : Logic} (J : JsonCpp) (hq : s.msgQue = node :: rest) :
    (∃ s', iteration J s = .next s' ∧ s'.msgQue = rest) ↔
      Survives J node (s.sendQues node.session) := by
  have hcall : (∃ sendQue, helloWorldCallBack J 4 (s.sendQues node.session)
      (msgData node.recvnode) = .returned sendQue) ↔ _ := helloWorld_returned_iff (by decide) _
  simp only [iteration, hq, Survives]
  by_cases hid : node.recvnode.msgId = msgHelloWord
  · rw [if_pos hid, or_iff_right (not_not_intro hid), ← hcall]
    constructor
    · rintro ⟨s', h, -⟩
      split at h
      · rename_i sendQue hsent
        exact ⟨sendQue, hsent⟩
      · cases h
      · cases h
    · rintro ⟨sendQue, hsent⟩
      exact ⟨_, by rw [hsent], rfl⟩
  · rw [if_neg hid]
    exact ⟨fun _ => .inl hid, fun _ => ⟨_, rfl, rfl⟩⟩

theorem dealStep_next {d d' : Dealt} (hd : ∃ s, d = .next s) (hok : DealsSurvive J d a)
    (h : dealStep J d a = some d') : ∃ s, d' = .next s := by
  obtain ⟨s, rfl⟩ := hd
  cases a with
  | post node =>
    cases h
    exact ⟨_, rfl⟩
  | written x =>
    cases h
    exact ⟨_, rfl⟩
  | deal =>
    cases hq : s.msgQue with
    | nil => simp [dealStep, hq] at h
    | cons node rest =>
      obtain ⟨s', hnext, -⟩ := (iteration_iff J hq).mpr (hok s node rest rfl rfl hq)
      simp only [dealStep, hq, reduceCtorEq, if_false, Option.some.injEq] at h
      exact ⟨s', h.symm.trans hnext⟩

/-- The worker runs on as long as the messages survive, and each of them exactly
then makes way for the rest of the queue. -/
theorem dealMsg_survives_iff (J : JsonCpp) :
    (∀ d, (dealing J).Reachable (DealsSurvive J) d → ∃ s, d = .next s) ∧
    ∀ s node rest, s.msgQue = node :: rest →
      ((∃ s', iteration J s = .next s' ∧ s'.msgQue = rest) ↔
        Survives J node (s.sendQues node.session)) :=
  ⟨fun _ h => h.invariant (P := fun d => ∃ s, d = .next s) ⟨_, rfl⟩
      fun _ _ _ hd hok hstep => dealStep_next hd hok hstep,
    fun _ _ _ hq => iteration_iff J hq⟩

/-- A message `(1001, "{}")` alone in the queue. -/
def braces : Logic := ⟨[⟨0, bodyNode 1001 (ascii "\x7b\x7d")⟩], fun _ => []⟩

theorem survives_braces : Survives brackets ⟨0, bodyNode 1001 (ascii "\x7b\x7d")⟩ [] := by
  have hdata : msgData (bodyNode 1001 (ascii "\x7b\x7d")) = ascii "\x7b\x7d" := by decide +kernel
  obtain ⟨returnStr, msgId, root, ms, text, hanswers, hfits⟩ := answers_braces (Int.le_refl 4)
  exact .inr ⟨returnStr, msgId, root, ms, text, by rw [hdata]; exact hanswers, .inr hfits⟩

theorem dealMsg_survives_iff_braces :
    (∃ s, iteration brackets braces = .next s) ∧
    ∃ s, iteration brackets braces = .next s ∧ s.msgQue = [] := by
  have hpost : (dealing brackets).Reachable (DealsSurvive brackets) (.next braces) :=
    Reachable.init.step (a := .post ⟨0, bodyNode 1001 (ascii "\x7b\x7d")⟩) nofun rfl
  have hdeal : DealsSurvive brackets (.next braces) .deal := by
    rintro s node rest - ⟨⟩ ⟨⟩
    exact survives_braces
  exact ⟨(dealMsg_survives_iff brackets).1 _ (hpost.step (a := .deal) hdeal rfl),
    ((dealMsg_survives_iff brackets).2 braces _ [] rfl).mpr survives_braces⟩

/-- The body is an array: `root["id"]` throws. -/
theorem dealMsg_array_throws :
    ¬ ∀ (J : JsonCpp) (s : Logic) (node : LogicNode) (rest : List LogicNode),
      (dealing J).Reachable anyStep (.next s) → s.msgQue = node :: rest →
      ∃ s', iteration J s = .next s' ∧ s'.msgQue = rest := by
  intro h
  have hreach : (dealing brackets).Reachable anyStep
      (.next ⟨[⟨0, bodyNode 1001 (ascii "[]")⟩], fun _ => []⟩) :=
    Reachable.init.step (a := .post ⟨0, bodyNode 1001 (ascii "[]")⟩) trivial rfl
  obtain ⟨s', hnext, -⟩ := h brackets _ _ _ hreach rfl
  have hstop : (iteration brackets
      ⟨[⟨0, bodyNode 1001 (ascii "[]")⟩], fun _ => []⟩).isNext = false := by decide +kernel
  rw [hnext] at hstop
  cases hstop

end DdsAuto.LogicServer
