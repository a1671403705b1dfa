import DdsAuto.Iooperation.Session

/-!
# The pending flags of iooperation

`_send_pending` and `_recv_pending` against the operations outstanding, for
calls and completions in any order. `WriteCallBack` returns on an error without
clearing its flag and `ReadCallBack` does not look at the error.
`pending_truthful_iff`: this is all that can go wrong.
-/

namespace DdsAuto.Iooperation

open CInt Memory Lts

/-- `RECVSIZE`. -/
abbrev recvSize : Nat := 1024

/-- An `async_read_some` whose handler has not run: where in `_recv_node` it
puts its bytes and how many it may. -/
structure Read where
  off : Int
  len : Nat
  deriving DecidableEq, Repr

/-- `MsgNode(int)`; what `new char[]` leaves in the block is zeros here. -/
def MsgNode.recv : MsgNode := ⟨List.replicate recvSize 0, recvSize, 0⟩

/-- `boost::asio::buffer(node->msg_ + node->cur_len_, node->total_len_ - node->cur_len_)`. -/
def MsgNode.read (node : MsgNode) : Read := ⟨node.curLen, toSizeT (node.totalLen - node.curLen)⟩

namespace Pending

structure Session where
  out : State
  recvNode : Option MsgNode
  recvPending : Bool
  reads : List Read

def readFromSocket (s : Session) : Session :=
  if s.recvPending then s
  else
    { s with
      recvNode := some .recv
      reads := s.reads ++ [MsgNode.recv.read]
      recvPending := true }

/-- `WriteCallBack` for the write at `i`. -/
def writeCallBack (s : Session) (i : Nat) (ec : Bool) (bytesTransferred : Nat) : Session :=
  if ec then { s with out := { s.out with writes := s.out.writes.eraseIdx i } }
  else { s with out := Iooperation.writeCallBack s.out i bytesTransferred }

/-- `ReadCallBack` for the read at `i` of the bytes; the error code is not used. -/
def readCallBack (s : Session) (i : Nat) (_ec : Bool) (bytes : List UInt8) : Session :=
  let reads := s.reads.eraseIdx i
  match s.recvNode with
  | none => s
  | some node =>
    let node : MsgNode :=
      { node with
        msg := store node.msg node.curLen bytes
        curLen := toInt (node.curLen + bytes.length) }
    if node.curLen < node.totalLen then
      { s with recvNode := some node, reads := reads ++ [node.read] }
    else { s with recvNode := none, recvPending := false, reads := reads }

/-- Calls and completions; a completion without an error has transferred
something. -/
inductive Label
  | writeToSocket (buf : List UInt8)
  | readFromSocket
  | writeCallBack (i : Nat) (ec : Bool) (bytesTransferred : Nat)
  | readCallBack (i : Nat) (ec : Bool) (bytes : List UInt8)

def step (s : Session) : Label → Option Session
  | .writeToSocket buf => some { s with out := writeToSocket s.out buf }
  | .readFromSocket => some (readFromSocket s)
  | .writeCallBack i ec n =>
    match s.out.writes[i]? with
    | some w =>
      if n ≤ w.len ∧ (ec = false → n = 0 → w.len = 0) then some (writeCallBack s i ec n) else none
    | none => none
  | .readCallBack i ec bytes =>
    match s.reads[i]? with
    | some r =>
      if bytes.length ≤ r.len ∧ (ec = false → bytes = [] → r.len = 0) then
        some (readCallBack s i ec bytes)
      else none
    | none => none

def system : Lts Session Label where
  init := ⟨Iooperation.system.init, none, false, []⟩
  step := step

/-- Each flag says whether its one operation is outstanding. -/
structure Truthful (s : Session) : Prop where
  send : s.out.sendPending = true ↔ s.out.writes.length = 1
  recv : s.recvPending = true ↔ s.reads.length = 1
  oneWrite : s.out.writes.length ≤ 1
  oneRead : s.reads.length ≤ 1

/-- A completion with an error starts nothing, and the next call does; a
`WriteToSocket` that cannot allocate its node is not counted. -/
def ErrorStops (s s' : Session) : Label → Prop
  | .writeCallBack i true _ =>
    s'.out.writes = s.out.writes.eraseIdx i ∧ s'.reads = s.reads ∧
      ∀ buf, MsgNode.new buf (toInt buf.length) ≠ none →
        (writeToSocket s'.out buf).writes.length = s'.out.writes.length + 1
  | .readCallBack i true _ =>
    s'.reads = s.reads.eraseIdx i ∧ s'.out.writes = s.out.writes ∧
      (readFromSocket s').reads.length = s'.reads.length + 1
  | _ => True

/-- No write completes with an error, and a read only if it filled its node. -/
def CompletionOk (s : Session) : Label → Prop
  | .writeCallBack _ ec _ => ec = false
  | .readCallBack i ec bytes => ec = true → ∀ r, s.reads[i]? = some r → bytes.length = r.len
  | _ => True

instance (s : Session) : ∀ a, Decidable (CompletionOk s a)
  | .writeCallBack _ ec _ => inferInstanceAs (Decidable (ec = false))
  | .readCallBack i ec bytes =>
    decidable_of_iff (ec = true → s.reads[i]?.all (bytes.length == ·.len) = true)
      (by simp [CompletionOk, Option.all_eq_true])
  | .writeToSocket _ | .readFromSocket => inferInstanceAs (Decidable True)

-- ---------------------------------------------------------------------------
-- The invariant
-- ---------------------------------------------------------------------------

/-- The write half: nothing to send and nothing outstanding, or one write for
the front of the queue. -/
inductive SendInv (s : State) : Prop
  | idle : s.sendQueue = [] → s.writes = [] → s.sendPending = false → SendInv s
  | writing (w : Write) : s.sendQueue ≠ [] → s.writes = [w] → s.sendPending = true → SendInv s

/-- The read half: no node, or one read for the rest of the node. -/
inductive RecvInv (s : Session) : Prop
  | idle : s.recvNode = none → s.reads = [] → s.recvPending = false → RecvInv s
  | reading (node : MsgNode) (cur : Nat) : s.recvNode = some node → s.reads = [node.read] →
      s.recvPending = true → node.totalLen = recvSize → node.curLen = cur → cur < recvSize →
      RecvInv s

structure Inv (s : Session) : Prop where
  send : SendInv s.out
  recv : RecvInv s

section
variable {s s' : Session} {t : State} {node : MsgNode} {cur : Nat}

theorem read_len (htotal : node.totalLen = recvSize) (hcur : node.curLen = cur)
    (hlt : cur < recvSize) : node.read.len = recvSize - cur := by
  have hlt : cur < 1024 := hlt
  have hsize : toSizeT ((1024 : Int) - cur) = 1024 - cur := by
    rw [toSizeT_of_nonneg (by omega) (by omega)]
    omega
  rw [MsgNode.read, htotal, hcur]
  exact hsize

theorem SendInv.writeToSocket (h : SendInv t) (buf : List UInt8) :
    SendInv (writeToSocket t buf) := by
  unfold Iooperation.writeToSocket
  cases MsgNode.new buf (toInt buf.length) with
  | none =>
    cases h with
    | idle hq hw hp => exact .idle hq hw hp
    | writing w hq hw hp => exact .writing w hq hw hp
  | some node =>
    cases h with
    | idle hq hw hp =>
      exact .writing ⟨.caller t.memory.length, buf.length, none⟩ (by simp [enqueue])
        (by simp [enqueue, hw, hp]) rfl
    | writing w hq hw hp =>
      exact .writing w (by simp [enqueue]) (by simp [enqueue, hw, hp]) rfl

theorem SendInv.writeCallBack (h : SendInv t) (hw : t.writes[i]? = some w) (n : Nat) :
    SendInv (Iooperation.writeCallBack t i n) := by
  cases h with
  | idle hq hnone hp => simp [hnone] at hw
  | writing w' hq hone hp =>
    obtain rfl : i = 0 := by
      rw [hone] at hw
      have hlt := (List.getElem?_eq_some_iff.mp hw).1
      simpa using hlt
    unfold Iooperation.writeCallBack
    cases hqueue : t.sendQueue with
    | nil => exact absurd hqueue hq
    | cons front rest =>
      simp only [hone, List.eraseIdx_zero, List.tail_cons, List.nil_append]
      split
      · exact .writing _ (by simp) rfl hp
      · cases rest with
        | nil => exact .idle rfl rfl rfl
        | cons next rest => exact .writing _ (by simp) rfl hp

theorem RecvInv.readFromSocket (h : RecvInv s) : RecvInv (readFromSocket s) := by
  unfold Pending.readFromSocket
  cases h with
  | idle hnode hreads hp =>
    rw [if_neg (by simp [hp])]
    exact .reading .recv 0 rfl (by simp [hreads]) rfl rfl rfl (by decide)
  | reading node cur hnode hreads hp htotal hcur hlt =>
    rw [if_pos hp]
    exact .reading node cur hnode hreads hp htotal hcur hlt

/-- What a read completion leaves: the node full and put away, or one more read. -/
theorem RecvInv.readCallBack (h : RecvInv s) (ec : Bool) (hr : s.reads[i]? = some r)
    (hle : bytes.length ≤ r.len) :
    RecvInv (readCallBack s i ec bytes) ∧ (readCallBack s i ec bytes).out = s.out ∧
      ((readCallBack s i ec bytes).reads = [] ↔ bytes.length = r.len) := by
  cases h with
  | idle hnode hnone hp => simp [hnone] at hr
  | reading node cur hnode hone hp htotal hcur hlt =>
    obtain ⟨rfl, rfl⟩ : i = 0 ∧ node.read = r := by
      rw [hone] at hr
      have hi := (List.getElem?_eq_some_iff.mp hr).1
      obtain rfl : i = 0 := by simpa using hi
      simpa using hr
    have hlen := read_len htotal hcur hlt
    have hlt : cur < 1024 := hlt
    have hlen : node.read.len = 1024 - cur := hlen
    have hnew : toInt (node.curLen + bytes.length) = ((cur + bytes.length : Nat) : Int) := by
      rw [hcur]
      exact toInt_natCast (cur + bytes.length) (by omega)
    have hmore : ((cur + bytes.length : Nat) : Int) < node.totalLen ↔ cur + bytes.length < 1024 := by
      rw [htotal]
      exact Int.ofNat_lt
    unfold Pending.readCallBack
    simp only [hnode, hone, hnew, hmore, List.eraseIdx_zero, List.tail_cons, List.nil_append]
    by_cases hrest : cur + bytes.length < 1024
    · rw [if_pos hrest]
      refine ⟨.reading _ (cur + bytes.length) rfl rfl hp htotal rfl hrest, rfl, ?_⟩
      simp only [List.cons_ne_self, false_iff]
      omega
    · rw [if_neg hrest]
      refine ⟨.idle rfl rfl rfl, rfl, ?_⟩
      simp only [true_iff]
      omega

theorem Inv.truthful (h : Inv s) : Truthful s := by
  obtain ⟨hsend, hrecv⟩ := h
  have hout : (s.out.sendPending = true ↔ s.out.writes.length = 1) ∧ s.out.writes.length ≤ 1 := by
    cases hsend with
    | idle _ hw hp => simp [hw, hp]
    | writing w _ hw hp => simp [hw, hp]
  have hin : (s.recvPending = true ↔ s.reads.length = 1) ∧ s.reads.length ≤ 1 := by
    cases hrecv with
    | idle _ hreads hp => simp [hreads, hp]
    | reading _ _ _ hreads hp => simp [hreads, hp]
  exact ⟨hout.1, hin.1, hout.2, hin.2⟩

-- ---------------------------------------------------------------------------
-- Runs
-- ---------------------------------------------------------------------------

theorem readFromSocket_out : (readFromSocket s).out = s.out := by
  unfold readFromSocket
  split <;> rfl

theorem inv_step (h : Inv s) (hok : CompletionOk s a) (hstep : step s a = some s') : Inv s' := by
  obtain ⟨hsend, hrecv⟩ := h
  cases a with
  | writeToSocket buf =>
    cases hstep
    refine ⟨hsend.writeToSocket buf, ?_⟩
    cases hrecv with
    | idle hnode hreads hp => exact .idle hnode hreads hp
    | reading node cur hnode hreads hp htotal hcur hlt =>
      exact .reading node cur hnode hreads hp htotal hcur hlt
  | readFromSocket =>
    cases hstep
    exact ⟨by rwa [readFromSocket_out], hrecv.readFromSocket⟩
  | writeCallBack i ec n =>
    cases hw : s.out.writes[i]? with
    | none => simp [step, hw] at hstep
    | some w =>
      simp only [step, hw, Option.ite_none_right_eq_some, Option.some.injEq] at hstep
      obtain ⟨-, rfl⟩ := hstep
      have hok : ec = false := hok
      rw [writeCallBack, hok, if_neg Bool.false_ne_true]
      refine ⟨hsend.writeCallBack hw n, ?_⟩
      cases hrecv with
      | idle hnode hreads hp => exact .idle hnode hreads hp
      | reading node cur hnode hreads hp htotal hcur hlt =>
        exact .reading node cur hnode hreads hp htotal hcur hlt
  | readCallBack i ec bytes =>
    cases hr : s.reads[i]? with
    | none => simp [step, hr] at hstep
    | some r =>
      simp only [step, hr, Option.ite_none_right_eq_some, Option.some.injEq] at hstep
      obtain ⟨⟨hle, -⟩, rfl⟩ := hstep
      obtain ⟨hinv, hout, -⟩ := hrecv.readCallBack ec hr hle
      exact ⟨hout ▸ hsend, hinv⟩

theorem readFromSocket_starts (hp : s.recvPending = false) :
    (readFromSocket s).reads.length = s.reads.length + 1 := by
  rw [readFromSocket, if_neg (by simp [hp])]
  simp

/-- An error is allowed only on a read that ends its node. -/
theorem errorStops_of_inv (h : Inv s) (hok : CompletionOk s a) (hstep : step s a = some s') :
    ErrorStops s s' a := by
  cases a with
  | writeToSocket => trivial
  | readFromSocket => trivial
  | writeCallBack i ec n =>
    have hok : ec = false := hok
    subst hok
    trivial
  | readCallBack i ec bytes =>
    cases ec with
    | false => trivial
    | true =>
      cases hr : s.reads[i]? with
      | none => simp [step, hr] at hstep
      | some r =>
        have hinv := (inv_step h hok hstep).recv
        simp only [step, hr, Option.ite_none_right_eq_some, Option.some.injEq] at hstep
        obtain ⟨⟨hle, -⟩, rfl⟩ := hstep
        obtain ⟨-, hout, hend⟩ := h.recv.readCallBack true hr hle
        have hempty := hend.mpr (hok rfl r hr)
        refine ⟨?_, hout ▸ rfl, ?_⟩
        · have hone : s.reads.length ≤ 1 := h.truthful.oneRead
          have hi := (List.getElem?_eq_some_iff.mp hr).1
          obtain rfl : i = 0 := by omega
          rw [hempty, List.eraseIdx_zero]
          exact (List.eq_nil_of_length_eq_zero (by simp; omega)).symm
        · cases hinv with
          | idle _ _ hp => exact readFromSocket_starts hp
          | reading _ _ _ hreads => rw [hreads] at hempty; cases hempty

/-- Where the condition fails, so does one of the two. -/
theorem broken_of_inv (h : Inv s) (hno : ¬ CompletionOk s a) (hstep : step s a = some s') :
    ¬ Truthful s' ∨ ¬ ErrorStops s s' a := by
  cases a with
  | writeToSocket => exact absurd trivial hno
  | readFromSocket => exact absurd trivial hno
  | writeCallBack i ec n =>
    obtain rfl : ec = true := by simpa [CompletionOk] using hno
    refine .inl fun htrue => ?_
    cases hw : s.out.writes[i]? with
    | none => simp [step, hw] at hstep
    | some w =>
      simp only [step, hw, Option.ite_none_right_eq_some, Option.some.injEq] at hstep
      obtain ⟨-, rfl⟩ := hstep
      have hi := (List.getElem?_eq_some_iff.mp hw).1
      cases h.send with
      | idle _ hnone => simp [hnone] at hi
      | writing w' _ hone hp =>
        obtain rfl : i = 0 := by simpa [hone] using hi
        have hflag := htrue.send
        simp [writeCallBack, hone, hp] at hflag
  | readCallBack i ec bytes =>
    simp only [CompletionOk, not_forall] at hno
    obtain ⟨rfl, r, hr, hshort⟩ := hno
    refine .inr fun hstop => ?_
    simp only [step, hr, Option.ite_none_right_eq_some, Option.some.injEq] at hstep
    obtain ⟨⟨hle, -⟩, rfl⟩ := hstep
    obtain ⟨-, -, hend⟩ := h.recv.readCallBack true hr hle
    refine hshort (hend.mp ?_)
    rw [hstop.1]
    have hone : s.reads.length ≤ 1 := h.truthful.oneRead
    have hi := (List.getElem?_eq_some_iff.mp hr).1
    obtain rfl : i = 0 := by omega
    rw [List.eraseIdx_zero]
    exact List.eq_nil_of_length_eq_zero (by simp; omega)

end

theorem inv_of_reachable (h : system.Reachable CompletionOk s) : Inv s :=
  h.invariant (P := Inv) ⟨.idle rfl rfl rfl, .idle rfl rfl rfl⟩
    fun _ _ _ hs hok hstep => inv_step hs hok hstep

/-- The flags tell the truth and errors stop as long as every completion is
`CompletionOk`; the first that is not ends this. -/
theorem pending_truthful_iff (h : system.Reachable CompletionOk s) :
    Truthful s ∧ ∀ a s', step s a = some s' →
      (Truthful s' ∧ ErrorStops s s' a ↔ CompletionOk s a) := by
  have hinv := inv_of_reachable h
  refine ⟨hinv.truthful, fun a s' hstep => ⟨fun hboth => ?_, fun hok => ?_⟩⟩
  · by_contra hno
    rcases broken_of_inv hinv hno hstep with hflag | hstop
    · exact hflag hboth.1
    · exact hstop hboth.2
  · exact ⟨(inv_step hinv hok hstep).truthful, errorStops_of_inv hinv hok hstep⟩

/-- A partial write and a read in two pieces, the second ending in an error. -/
theorem pending_truthful_two : ∃ s, system.Reachable CompletionOk s ∧ s.out.writes.length = 1 ∧
    s.reads = [] ∧ Truthful s ∧ ∀ s', step s (.writeCallBack 0 true 0) = some s' →
      ¬ (Truthful s' ∧ ErrorStops s s' (.writeCallBack 0 true 0)) := by
  obtain ⟨s, hs, hcheck⟩ := reachable_of_execIf system
    (fun s a => decide (CompletionOk s a)) (fun _ _ hok => of_decide_eq_true hok)
    [.writeToSocket [7, 8], .readFromSocket, .writeCallBack 0 false 1,
      .readCallBack 0 false [1], .readCallBack 0 true (List.replicate 1023 2)]
    (fun s => s.out.writes.length == 1 && s.reads.isEmpty) (by decide +kernel)
  rw [Bool.and_eq_true, beq_iff_eq, List.isEmpty_iff] at hcheck
  obtain ⟨htrue, hiff⟩ := pending_truthful_iff hs
  refine ⟨s, hs, hcheck.1, hcheck.2, htrue, fun s' hstep hboth => ?_⟩
  exact Bool.noConfusion ((hiff _ s' hstep).mp hboth)

/-- The write of `[7]` fails: the flag stays set and no write is outstanding. -/
theorem error_keeps_sendPending : ¬ ∀ s, system.Reachable anyStep s → Truthful s := by
  intro h
  obtain ⟨s, hs, hcheck⟩ := reachable_of_exec system
    [.writeToSocket [7], .writeCallBack 0 true 0]
    (fun s => s.out.sendPending && s.out.writes.isEmpty) (by decide +kernel)
  rw [Bool.and_eq_true, List.isEmpty_iff] at hcheck
  have hone := (h s hs).send.mp hcheck.1
  rw [hcheck.2] at hone
  cases hone

end Pending

end DdsAuto.Iooperation
