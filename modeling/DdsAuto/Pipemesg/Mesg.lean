import DdsAuto.Lib.Words
import Mathlib.Data.List.Forall2

/-!
# Messages through a pipe

`mesg_send`, `Mesg_send`, `mesg_recv` and `Mesg_recv` of `pipemesg`. A message
is a header of two `long`s, the length and the type, and then the data. The
pipe is the list of the bytes in it.

A complete `write` of a message puts all of it in the pipe, and the receiver
gets every message that has data back (`recvs_encode_iff`). `Mesg_send` however
compares what `write` returns with the length of the data alone, so it ends the
process after each complete write; and `mesg_recv` returns nothing for a
message without data.
-/

namespace DdsAuto.Pipemesg

open CInt Memory

/-- `PIPE_BUF - 2*sizeof(long)`, with the 4096 bytes of `<limits.h>`. -/
def MAXMESGDATA : Nat := 4080

/-- `sizeof(struct mymesg) - MAXMESGDATA`. -/
def MESGHDRSIZE : Nat := 16

structure Mymesg where
  mesg_len : Int
  mesg_type : Int
  mesg_data : List UInt8
  lenLong : IsLong mesg_len
  typeLong : IsLong mesg_type
  dataSize : mesg_data.length = MAXMESGDATA

/-- "can be 0" and "must be > 0", of the comments in `mesg.h`. -/
def Mymesg.Valid (m : Mymesg) : Prop :=
  0 < m.mesg_type ∧ 0 ≤ m.mesg_len ∧ m.mesg_len ≤ MAXMESGDATA

def Mymesg.header (m : Mymesg) : List UInt8 := longBytes m.mesg_len ++ longBytes m.mesg_type

/-- The memory of the structure. -/
def Mymesg.block (m : Mymesg) : List UInt8 := m.header ++ m.mesg_data

/-- The structure after bytes are stored from its start; a short header
replaces only the bytes it has. -/
def Mymesg.storeHeader (m : Mymesg) (bytes : List UInt8) : Mymesg :=
  let header := store m.header 0 bytes
  { m with
    mesg_len := loadLong header
    mesg_type := loadLong (header.drop 8)
    lenLong := loadLong_isLong _
    typeLong := loadLong_isLong _ }

def Mymesg.storeData (m : Mymesg) (bytes : List UInt8) : Mymesg :=
  { m with mesg_data := store m.mesg_data 0 bytes, dataSize := by rw [length_store, m.dataSize] }

abbrev Pipe := List UInt8

/-- How many of the bytes offered a `write` takes; `none` when it fails. -/
abbrev Kernel := Nat → Option Nat

/-- A kernel whose writes are complete. -/
def complete : Kernel := some

/-- `write`: what it takes of the block's first `n` bytes is in the pipe. -/
def write (k : Kernel) (pipe : Pipe) (block : List UInt8) (n : Nat) : Pipe × Int :=
  match k n with
  | some taken => (pipe ++ load block 0 (min taken n), (min taken n : Nat))
  | none => (pipe, -1)

/-- `Read`: the bytes asked for when they are available, else those that are. -/
def read (pipe : Pipe) (n : Nat) : Pipe × List UInt8 := (pipe.drop n, pipe.take n)

/-- How a call that may `err_quit` ends. A function that reaches its closing
brace without a `return` has no value. -/
inductive Outcome
  | returned (n : Int)
  | quit (text : String)
  | fellOff
  deriving DecidableEq, Repr

-- ---------------------------------------------------------------------------
-- mesg_send.cpp
-- ---------------------------------------------------------------------------

def mesgSend (k : Kernel) (pipe : Pipe) (m : Mymesg) : Pipe × Int :=
  write k pipe m.block (toSizeT (MESGHDRSIZE + m.mesg_len))

/-- `Mesg_send`; the outcome's number is not looked at by any caller. -/
def mesgSendOrQuit (k : Kernel) (pipe : Pipe) (m : Mymesg) : Pipe × Outcome :=
  let (pipe, n) := mesgSend k pipe m
  if n ≠ m.mesg_len then (pipe, .quit "mesg_send error") else (pipe, .returned n)

-- ---------------------------------------------------------------------------
-- mesg_recv.cpp
-- ---------------------------------------------------------------------------

def mesgRecv (pipe : Pipe) (m : Mymesg) : Pipe × Mymesg × Outcome :=
  let (pipe, got) := read pipe MESGHDRSIZE
  let m := m.storeHeader got
  if got.length = 0 then (pipe, m, .returned 0)
  else if got.length ≠ MESGHDRSIZE then
    (pipe, m, .quit s!"message header: expected {MESGHDRSIZE}, got {got.length}")
  else
    let len := toSizeT m.mesg_len
    if len > 0 then
      let (pipe, got) := read pipe len
      let m := m.storeData got
      if got.length ≠ len then
        (pipe, m, .quit s!"message data: expected {len}, got {got.length}")
      else (pipe, m, .returned (toLong len))
    else (pipe, m, .fellOff)

/-- `Mesg_recv`. -/
def mesgRecvOrQuit (pipe : Pipe) (m : Mymesg) : Pipe × Mymesg × Outcome := mesgRecv pipe m

-- ---------------------------------------------------------------------------
-- A sender and a receiver
-- ---------------------------------------------------------------------------

/-- A call of `Mesg_send`: what its `write` returned and how it ended. -/
structure Sent where
  wrote : Int
  outcome : Outcome

/-- One process sends the messages in order; `err_quit` ends it. -/
def sends (k : Kernel) : Pipe → List Mymesg → Pipe × List Sent
  | pipe, [] => (pipe, [])
  | pipe, m :: ms =>
    let sent : Sent := ⟨(mesgSend k pipe m).2, (mesgSendOrQuit k pipe m).2⟩
    match mesgSendOrQuit k pipe m with
    | (pipe, .returned _) => ((sends k pipe ms).1, sent :: (sends k pipe ms).2)
    | (pipe, _) => (pipe, [sent])

/-- The receiver calls `Mesg_recv` `n` times into one buffer; it stops at a
call that returns no value. -/
def recvs : Nat → Pipe → Mymesg → List (Mymesg × Outcome)
  | 0, _, _ => []
  | n + 1, pipe, m =>
    match mesgRecvOrQuit pipe m with
    | (pipe, m, .returned r) => (m, .returned r) :: recvs n pipe m
    | (_, m, outcome) => [(m, outcome)]

/-- `Mesg_send` returned exactly if the header and the data were written. -/
def Exact (m : Mymesg) (sent : Sent) : Prop :=
  (∃ n, sent.outcome = .returned n) ↔ sent.wrote = MESGHDRSIZE + m.mesg_len

def Mymesg.data (m : Mymesg) : List UInt8 := m.mesg_data.take m.mesg_len.toNat

/-- `Mesg_recv` returned the length and stored the message that was sent. -/
def Delivered (m : Mymesg) (got : Mymesg × Outcome) : Prop :=
  got.2 = .returned m.mesg_len ∧ got.1.mesg_len = m.mesg_len ∧
    got.1.mesg_type = m.mesg_type ∧ got.1.data = m.data

/-- The channel's contract for the messages `ms` and the receiver's buffer. -/
structure Faithful (ms : List Mymesg) (buf : Mymesg) : Prop where
  exact : List.Forall₂ Exact ms (sends complete [] ms).2
  delivered : List.Forall₂ Delivered ms (recvs ms.length (sends complete [] ms).1 buf)

-- ---------------------------------------------------------------------------
-- What a complete write puts in the pipe, and what the receiver makes of it
-- ---------------------------------------------------------------------------

/-- A message on the wire. -/
def encode (m : Mymesg) : Pipe := m.header ++ m.data

variable {m buf : Mymesg}

@[simp] theorem Mymesg.length_header (m : Mymesg) : m.header.length = MESGHDRSIZE := by
  simp [Mymesg.header, MESGHDRSIZE]

theorem Mymesg.Valid.length_data (hm : m.Valid) : m.data.length = m.mesg_len.toNat := by
  obtain ⟨-, -, hmax⟩ := hm
  rw [Mymesg.data, List.length_take, m.dataSize]
  omega

theorem mesgSend_complete (hm : m.Valid) (pipe : Pipe) :
    mesgSend complete pipe m = (pipe ++ encode m, MESGHDRSIZE + m.mesg_len) := by
  have hsize : toSizeT (MESGHDRSIZE + m.mesg_len) = m.header.length + m.mesg_len.toNat := by
    obtain ⟨-, hpos, hmax⟩ := hm
    rw [m.length_header]
    unfold MESGHDRSIZE MAXMESGDATA at *
    rw [toSizeT_of_nonneg (by omega) (by omega)]
    omega
  have hblock : load m.block 0 (m.header.length + m.mesg_len.toNat) = encode m := by
    rw [load_eq_take (by have := hm.length_data; simp [Mymesg.block, Mymesg.data] at *; omega),
      Mymesg.block, List.take_length_add_append, encode, Mymesg.data]
  have hnat : ((m.header.length + m.mesg_len.toNat : Nat) : Int) = MESGHDRSIZE + m.mesg_len := by
    obtain ⟨-, hpos, -⟩ := hm
    rw [m.length_header]
    omega
  simp only [mesgSend, write, complete, hsize, Nat.min_self, hblock, hnat]

theorem mesgSendOrQuit_complete (hm : m.Valid) (pipe : Pipe) :
    mesgSendOrQuit complete pipe m = (pipe ++ encode m, .quit "mesg_send error") := by
  have hne : (MESGHDRSIZE + m.mesg_len : Int) ≠ m.mesg_len := by unfold MESGHDRSIZE; omega
  simp only [mesgSendOrQuit, mesgSend_complete hm, if_pos hne]

theorem store_header (buf m : Mymesg) : store buf.header 0 m.header = m.header := by
  have htake : (store buf.header 0 m.header).take m.header.length = m.header :=
    take_store_zero buf.header (by simp)
  rwa [List.take_of_length_le (by simp)] at htake

@[simp] theorem Mymesg.storeHeader_len (buf m : Mymesg) :
    (buf.storeHeader m.header).mesg_len = m.mesg_len := by
  simp only [Mymesg.storeHeader, store_header]
  exact loadLong_longBytes m.lenLong _

@[simp] theorem Mymesg.storeHeader_type (buf m : Mymesg) :
    (buf.storeHeader m.header).mesg_type = m.mesg_type := by
  have hdrop : m.header.drop 8 = longBytes m.mesg_type ++ [] := by
    have hleft := @List.drop_left _ (longBytes m.mesg_len) (longBytes m.mesg_type)
    rw [length_longBytes] at hleft
    rw [Mymesg.header, hleft, List.append_nil]
  simp only [Mymesg.storeHeader, store_header, hdrop]
  exact loadLong_longBytes m.typeLong _

theorem read_append (pre rest : List UInt8) : read (pre ++ rest) pre.length = (rest, pre) := by
  simp [read]

/-- Reading a message of the wire into any buffer. -/
theorem mesgRecv_encode (hm : m.Valid) (buf : Mymesg) (rest : Pipe) :
    mesgRecv (encode m ++ rest) buf =
      if 0 < m.mesg_len then
        (rest, (buf.storeHeader m.header).storeData m.data, .returned m.mesg_len)
      else (rest, buf.storeHeader m.header, .fellOff) := by
  have hsize : toSizeT m.mesg_len = m.data.length := by
    obtain ⟨-, hpos, hmax⟩ := id hm
    rw [hm.length_data]
    unfold MAXMESGDATA at hmax
    exact toSizeT_of_nonneg hpos (by omega)
  have hheader : read (encode m ++ rest) MESGHDRSIZE = (m.data ++ rest, m.header) := by
    rw [encode, List.append_assoc, ← m.length_header, read_append]
  have hlong : toLong (m.data.length : Nat) = m.mesg_len := by
    rw [← hsize, toLong_toSizeT m.lenLong]
  have hne : MESGHDRSIZE ≠ 0 := by decide
  simp only [mesgRecv, hheader, m.length_header, if_neg hne, ne_eq, not_true_eq_false, if_false,
    Mymesg.storeHeader_len, hsize, read_append, hlong]
  by_cases hpos : 0 < m.mesg_len
  · have hdata : m.data.length > 0 := by rw [hm.length_data]; omega
    rw [if_pos hpos, if_pos hdata]
  · have hdata : ¬ m.data.length > 0 := by rw [hm.length_data]; omega
    rw [if_neg hpos, if_neg hdata]
    have hnil : m.data = [] := List.length_eq_zero_iff.mp (by omega)
    rw [hnil, List.nil_append]

theorem delivered_store (hm : m.Valid) (buf : Mymesg) :
    Delivered m ((buf.storeHeader m.header).storeData m.data, .returned m.mesg_len) := by
  refine ⟨rfl, buf.storeHeader_len m, buf.storeHeader_type m, ?_⟩
  have hfits : m.data.length ≤ (buf.storeHeader m.header).mesg_data.length := by
    rw [Mymesg.dataSize, Mymesg.data, List.length_take, m.dataSize]
    omega
  have htake := take_store_zero _ hfits
  rw [hm.length_data] at htake
  simpa [Mymesg.data, Mymesg.storeData] using htake

/-- The receiver gets the messages of complete writes exactly when each of
them has data. -/
theorem recvs_encode_iff (ms : List Mymesg) (hms : ∀ m ∈ ms, m.Valid) (buf : Mymesg)
    (rest : Pipe) :
    List.Forall₂ Delivered ms (recvs ms.length (ms.flatMap encode ++ rest) buf) ↔
      ∀ m ∈ ms, 0 < m.mesg_len := by
  induction ms generalizing buf with
  | nil => simp [recvs]
  | cons m ms ih =>
    have hm := hms m List.mem_cons_self
    have ih := ih (fun m' hm' => hms m' (List.mem_cons_of_mem _ hm'))
    rw [List.flatMap_cons, List.append_assoc, List.length_cons, recvs, mesgRecvOrQuit,
      mesgRecv_encode hm]
    by_cases hpos : 0 < m.mesg_len
    · rw [if_pos hpos, List.forall₂_cons, ih, List.forall_mem_cons,
        and_iff_right (delivered_store hm buf), and_iff_right hpos]
    · rw [if_neg hpos, List.forall₂_cons]
      constructor
      · rintro ⟨⟨hret, -⟩, -⟩
        cases hret
      · intro hall
        exact absurd (hall m List.mem_cons_self) hpos

-- ---------------------------------------------------------------------------
-- The channel
-- ---------------------------------------------------------------------------

/-- What a run of `mesg_send` leaves in the pipe. -/
theorem foldl_mesgSend (ms : List Mymesg) (hms : ∀ m ∈ ms, m.Valid) (pipe : Pipe) :
    ms.foldl (fun pipe m => (mesgSend complete pipe m).1) pipe = pipe ++ ms.flatMap encode := by
  induction ms generalizing pipe with
  | nil => simp
  | cons m ms ih =>
    have hm := hms m List.mem_cons_self
    have ih := ih (fun m' hm' => hms m' (List.mem_cons_of_mem _ hm'))
    rw [List.foldl_cons, mesgSend_complete hm, ih, List.flatMap_cons, List.append_assoc]

/-- The first `Mesg_send` ends the process, its message written. -/
theorem sends_cons (hm : m.Valid) (ms : List Mymesg) :
    sends complete [] (m :: ms) =
      (encode m, [⟨MESGHDRSIZE + m.mesg_len, .quit "mesg_send error"⟩]) := by
  simp only [sends, mesgSendOrQuit_complete hm, mesgSend_complete hm, List.nil_append]

/-- The sender does not return from the complete write of its first message. -/
theorem not_faithful_cons (hm : m.Valid) (ms : List Mymesg) (buf : Mymesg) :
    ¬ Faithful (m :: ms) buf := by
  intro h
  have hexact := h.exact
  rw [sends_cons hm] at hexact
  obtain ⟨hfirst, -⟩ := List.forall₂_cons.mp hexact
  obtain ⟨n, hn⟩ := hfirst.mpr rfl
  cases hn

theorem faithful_nil (buf : Mymesg) : Faithful [] buf := ⟨.nil, .nil⟩

/-- The channel of `Mesg_send` and `Mesg_recv` is faithful to the empty
sequence alone; the bytes `mesg_send` writes are read back exactly when no
message is empty. -/
theorem channel_faithful_iff (ms : List Mymesg) (hms : ∀ m ∈ ms, m.Valid) (buf : Mymesg) :
    (Faithful ms buf ↔ ms = []) ∧
      (List.Forall₂ Delivered ms (recvs ms.length
          (ms.foldl (fun pipe m => (mesgSend complete pipe m).1) []) buf) ↔
        ∀ m ∈ ms, 0 < m.mesg_len) := by
  refine ⟨⟨fun h => ?_, fun h => h ▸ faithful_nil buf⟩, ?_⟩
  · cases ms with
    | nil => rfl
    | cons m ms => exact absurd h (not_faithful_cons (hms m List.mem_cons_self) ms buf)
  · have hpipe := recvs_encode_iff ms hms buf []
    rw [foldl_mesgSend ms hms, List.nil_append]
    rwa [List.append_nil] at hpipe

/-- A message of type 1 with the three bytes "abc". -/
def abc : Mymesg where
  mesg_len := 3
  mesg_type := 1
  mesg_data := [97, 98, 99] ++ List.replicate 4077 0
  lenLong := by decide
  typeLong := by decide
  dataSize := by rw [List.length_append, List.length_replicate]; rfl

theorem abc_valid : abc.Valid := by unfold Mymesg.Valid; decide

theorem channel_faithful_iff_abc :
    (Faithful [abc] abc ↔ [abc] = []) ∧
      (List.Forall₂ Delivered [abc] (recvs 1
          ([abc].foldl (fun pipe m => (mesgSend complete pipe m).1) []) abc) ↔
        ∀ m ∈ [abc], 0 < m.mesg_len) :=
  channel_faithful_iff [abc] (by simpa using abc_valid) abc

/-- "abc" is written whole, and `Mesg_send` quits. -/
theorem abc_not_faithful : abc.Valid ∧ ¬ Faithful [abc] abc ∧
    sends complete [] [abc] = (encode abc, [⟨19, .quit "mesg_send error"⟩]) :=
  ⟨abc_valid, not_faithful_cons abc_valid [] abc, sends_cons abc_valid []⟩

end DdsAuto.Pipemesg
