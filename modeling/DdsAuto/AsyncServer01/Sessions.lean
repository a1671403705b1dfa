import DdsAuto.Lib.CString
import DdsAuto.Lib.Lts
import DdsAuto.Lib.Memory

/-!
# Sessions that delete themselves

The handlers of AsyncServer01 hold a raw `this`, and one that gets an error deletes it. One
thread runs the handlers of all sessions, in any order; in between the sockets take bytes
from the buffers of the writes. Each session that lives has one operation that has not
completed, so no handler is called on a session that is gone, and the buffer of a write is
left alone until all of it is out.
-/

namespace DdsAuto.AsyncServer01

open CString Memory Lts Function

/-- `max_length`. -/
abbrev maxLength : Nat := 1024

/-- An operation that has not completed, with the session whose handler it calls. `sent` of
the `len` bytes of a write are out. -/
inductive Op
  | accept (new_session : Nat)
  | read (this : Nat)
  | write (this : Nat) (len sent : Nat)
  deriving DecidableEq, Repr

def Op.session : Op → Nat
  | .accept id | .read id | .write id _ _ => id

/-- `heap` has the `_data` of the sessions that live; `received` and `wire` are what a
session's peer has sent and got, `deleted` the deletions. -/
structure State where
  heap : Nat → Option (List UInt8)
  next : Nat
  ops : List Op
  deleted : List Nat
  received : Nat → List (List UInt8)
  wire : Nat → List UInt8

/-- `memset(_data, 0, max_length)` and `async_read_some`. A session that is gone has none of
these steps. -/
def armRead (s : State) (id : Nat) : Option State :=
  (s.heap id).map fun _ => { s with
    heap := update s.heap id (some (List.replicate maxLength 0))
    ops := s.ops ++ [.read id] }

/-- `delete`. -/
def delete (s : State) (id : Nat) : Option State :=
  (s.heap id).map fun _ => { s with
    heap := update s.heap id none
    deleted := s.deleted ++ [id] }

/-- `start_accept`; `junk` is what the new session's `_data` holds. -/
def startAccept (junk : List UInt8) (s : State) : State :=
  { s with
    heap := update s.heap s.next (some junk)
    next := s.next + 1
    ops := s.ops ++ [.accept s.next] }

/-- `handle_accept`. -/
def handleAccept (s : State) (id : Nat) (error : Bool) (junk : List UInt8) : Option State :=
  (if error then delete s id else armRead s id).map (startAccept junk)

/-- The read puts the bytes into `_data`, and `handle_read` writes them out. -/
def handleRead (s : State) (id : Nat) : Option (List UInt8) → Option State
  | none => delete s id
  | some chunk =>
    (s.heap id).map fun data => { s with
      heap := update s.heap id (some (store data 0 chunk))
      ops := s.ops ++ [.write id chunk.length 0]
      received := update s.received id (s.received id ++ [chunk]) }

/-- `handle_write`. -/
def handleWrite (s : State) (id : Nat) (error : Bool) : Option State :=
  if error then delete s id else armRead s id

/-- The socket takes the next `n` bytes of the write. -/
def transmit (s : State) (id len sent n : Nat) : Option State :=
  (s.heap id).map fun data => { s with
    ops := s.ops ++ [.write id len (sent + n)]
    wire := update s.wire id (s.wire id ++ load data sent n) }

/-- The operation at `i` goes on. -/
inductive Label
  | accept (i : Nat) (error : Bool) (junk : List UInt8)
  | read (i : Nat) (result : Option (List UInt8))
  | transmit (i n : Nat)
  | write (i : Nat) (error : Bool)

/-- What may happen to an operation. A read brings at least one byte, and a write has no
error only when all is out. -/
def Op.Allows : Op → Label → Prop
  | .accept _, .accept .. => True
  | .read _, .read _ none => True
  | .read _, .read _ (some chunk) => chunk ≠ [] ∧ chunk.length ≤ maxLength
  | .write _ len sent, .transmit _ n => 0 < n ∧ sent + n ≤ len
  | .write _ len sent, .write _ error => error = true ∨ sent = len
  | _, _ => False

instance (op : Op) (a : Label) : Decidable (op.Allows a) := by
  unfold Op.Allows
  split <;> infer_instance

/-- The handler of the operation, or the socket's part of a write. -/
def Op.go (s : State) : Op → Label → Option State
  | .accept id, .accept _ error junk => handleAccept s id error junk
  | .read id, .read _ result => handleRead s id result
  | .write id len sent, .transmit _ n => transmit s id len sent n
  | .write id _ _, .write _ error => handleWrite s id error
  | _, _ => none

def Label.index : Label → Nat
  | .accept i .. | .read i _ | .transmit i _ | .write i _ => i

def step (s : State) (a : Label) : Option State :=
  match s.ops[a.index]? with
  | none => none
  | some op => if op.Allows a then op.go { s with ops := s.ops.eraseIdx a.index } a else none

/-- The constructor of `Server` has begun the first accept. -/
def system (junk : List UInt8) : Lts State Label where
  init := startAccept junk ⟨fun _ => none, 0, [], [], fun _ => [], fun _ => []⟩
  step := step

/-- What `handle_read` logs: `_data`, up to its first NUL. -/
def logAccess (data : List UInt8) : Access := .load 0 ((cstr data).length + 1) maxLength

-- ---------------------------------------------------------------------------
-- One operation for each session
-- ---------------------------------------------------------------------------

def Op.isAccept : Op → Bool
  | .accept _ => true
  | _ => false

/-- What is known of a session while the operation has not completed. -/
def Op.Ok (s : State) : Op → Prop
  | .accept id => s.received id = [] ∧ s.wire id = []
  | .read id =>
    s.heap id = some (List.replicate maxLength 0) ∧ s.wire id = (s.received id).flatten
  | .write id len sent => ∃ before chunk tail, s.received id = before ++ [chunk] ∧
      chunk.length = len ∧ s.heap id = some (chunk ++ tail) ∧ sent ≤ len ∧
      s.wire id = before.flatten ++ chunk.take sent

/-- `accepts` accepts have not completed. -/
structure Inv (accepts : Nat) (s : State) : Prop where
  nodup : (s.ops.map Op.session).Nodup
  live : ∀ id, s.heap id ≠ none ↔ id ∈ s.ops.map Op.session
  below : ∀ id, s.heap id ≠ none → id < s.next
  accepts : s.ops.countP Op.isAccept = accepts
  ok : ∀ op ∈ s.ops, op.Ok s
  fresh : ∀ id, s.next ≤ id → s.received id = [] ∧ s.wire id = []
  echoed : ∀ id, s.wire id <+: (s.received id).flatten
  once : s.deleted.Nodup
  gone : ∀ id, id ∈ s.deleted ↔ id < s.next ∧ s.heap id = none

variable {s s' : State} {op : Op} {ops : List Op} {id accepts : Nat} {a : Label}

theorem perm_cons_eraseIdx {l : List Op} {i : Nat} (h : l[i]? = some op) :
    l.Perm (op :: l.eraseIdx i) := by
  induction l generalizing i with
  | nil => cases h
  | cons b l ih =>
    cases i with
    | zero =>
      cases h
      exact .refl _
    | succ i => exact ((ih h).cons b).trans (.swap op b _)

theorem Inv.perm (h : Inv accepts s) (hperm : s.ops.Perm ops) :
    Inv accepts { s with ops := ops } where
  nodup := (hperm.map _).nodup_iff.mp h.nodup
  live id := (h.live id).trans (hperm.map _).mem_iff
  below := h.below
  accepts := (hperm.countP_eq _).symm.trans h.accepts
  ok op hop := h.ok op (hperm.mem_iff.mpr hop)
  fresh := h.fresh
  echoed := h.echoed
  once := h.once
  gone := h.gone

/-- Nothing changes but for the session `id`. -/
structure Off (id : Nat) (s s' : State) : Prop where
  heap : ∀ q, q ≠ id → s'.heap q = s.heap q
  received : ∀ q, q ≠ id → s'.received q = s.received q
  wire : ∀ q, q ≠ id → s'.wire q = s.wire q
  next : s'.next = s.next

theorem Op.Ok.off (h : op.Ok s) (hoff : Off id s s') (hne : op.session ≠ id) : op.Ok s' := by
  have hheap := hoff.heap _ hne
  have hreceived := hoff.received _ hne
  have hwire := hoff.wire _ hne
  cases op <;> simp only [Op.Ok, Op.session] at h hheap hreceived hwire ⊢ <;>
    simpa only [hheap, hreceived, hwire] using h

theorem Inv.head (h : Inv accepts s) (hops : s.ops = op :: ops) :
    (∃ data, s.heap op.session = some data) ∧ op.session ∉ ops.map Op.session := by
  have hnodup := h.nodup
  rw [hops, List.map_cons, List.nodup_cons] at hnodup
  refine ⟨Option.ne_none_iff_exists'.mp ((h.live _).mpr ?_), hnodup.1⟩
  rw [hops, List.map_cons]
  exact List.mem_cons_self

/-- An operation is followed by another one of its session. -/
theorem Inv.replace (h : Inv accepts s) (hops : s.ops = op :: ops) (op' : Op)
    (hops' : s'.ops = ops ++ [op']) (hsession : op'.session = op.session)
    (hoff : Off op.session s s') (hdeleted : s'.deleted = s.deleted)
    (hlive : s'.heap op.session ≠ none) (hok : op'.Ok s')
    (hecho : s'.wire op.session <+: (s'.received op.session).flatten)
    {n : Nat} (hcount : n + op.isAccept.toNat = accepts + op'.isAccept.toNat) :
    Inv n s' := by
  obtain ⟨hhead, hnew⟩ := h.head hops
  have hold := h.live op.session
  have hsame (q : Nat) : s'.heap q ≠ none ↔ s.heap q ≠ none := by
    by_cases hq : q = op.session
    · subst hq
      exact iff_of_true hlive (hold.mpr (by rw [hops]; simp))
    · rw [hoff.heap q hq]
  have hids : (s'.ops.map Op.session).Perm (s.ops.map Op.session) := by
    rw [hops, hops', List.map_append, List.map_singleton, List.map_cons, hsession]
    exact List.perm_append_singleton ..
  refine ⟨hids.nodup_iff.mpr h.nodup,
    fun q => (hsame q).trans ((h.live q).trans hids.mem_iff.symm), fun q hq => ?_, ?_,
    fun o ho => ?_, fun q hq => ?_, fun q => ?_, hdeleted ▸ h.once, fun q => ?_⟩
  · rw [hoff.next]
    exact h.below q ((hsame q).mp hq)
  · have hall := h.accepts
    rw [hops, List.countP_cons] at hall
    rw [hops', List.countP_append, List.countP_singleton]
    cases hacc : op.isAccept <;> cases hacc' : op'.isAccept <;>
      simp [hacc, hacc'] at hall hcount ⊢ <;> omega
  · rw [hops'] at ho
    rcases List.mem_append.mp ho with ho | ho
    · have hne : o.session ≠ op.session := fun heq => hnew (heq ▸ List.mem_map_of_mem ho)
      exact (h.ok o (by rw [hops]; exact List.mem_cons_of_mem _ ho)).off hoff hne
    · rw [List.mem_singleton.mp ho]
      exact hok
  · rw [hoff.next] at hq
    have hne : q ≠ op.session := by
      rintro rfl
      exact absurd (h.below _ ((h.live _).mpr (by rw [hops]; simp))) (Nat.not_lt.mpr hq)
    rw [hoff.received q hne, hoff.wire q hne]
    exact h.fresh q hq
  · by_cases hq : q = op.session
    · rw [hq]
      exact hecho
    · rw [hoff.wire q hq, hoff.received q hq]
      exact h.echoed q
  · rw [hdeleted, hoff.next, h.gone q]
    exact and_congr_right fun _ => not_iff_not.mp (hsame q).symm

/-- The session of an operation that has failed is deleted. -/
theorem Inv.delete (h : Inv accepts s) (hops : s.ops = op :: ops) {n : Nat}
    (hcount : n + op.isAccept.toNat = accepts) :
    ∃ s', AsyncServer01.delete { s with ops := ops } op.session = some s' ∧ Inv n s' := by
  obtain ⟨⟨data, hdata⟩, hnew⟩ := h.head hops
  refine ⟨_, by rw [AsyncServer01.delete, hdata]; rfl, ?_⟩
  have hnodup := h.nodup
  rw [hops, List.map_cons, List.nodup_cons] at hnodup
  have hheap (q : Nat) (hq : q ≠ op.session) : update s.heap op.session none q = s.heap q :=
    update_of_ne hq ..
  refine ⟨hnodup.2, fun q => ?_, fun q hq => ?_, ?_, fun o ho => ?_, h.fresh, h.echoed, ?_,
    fun q => ?_⟩
  · by_cases hq : q = op.session
    · subst hq
      simpa using hnew
    · have hlive := h.live q
      rw [hops, List.map_cons, List.mem_cons, or_iff_right hq] at hlive
      simpa only [hheap q hq] using hlive
  · by_cases hq' : q = op.session
    · subst hq'
      simp at hq
    · simp only [hheap q hq'] at hq
      exact h.below q hq
  · have hall := h.accepts
    rw [hops, List.countP_cons] at hall
    cases hacc : op.isAccept <;> simp [hacc] at hall hcount ⊢ <;> omega
  · have hne : o.session ≠ op.session := fun heq => hnew (heq ▸ List.mem_map_of_mem ho)
    exact (h.ok o (by rw [hops]; exact List.mem_cons_of_mem _ ho)).off
      ⟨hheap, fun _ _ => rfl, fun _ _ => rfl, rfl⟩ hne
  · have hgone := h.gone op.session
    refine List.nodup_append.mpr ⟨h.once, List.pairwise_singleton .., fun x hx y hy => ?_⟩
    rw [List.mem_singleton.mp hy]
    rintro rfl
    rw [hgone, hdata] at hx
    cases hx.2
  · have hlt := h.below op.session (by rw [hdata]; simp)
    rw [List.mem_append, List.mem_singleton, h.gone q]
    by_cases hq : q = op.session
    · subst hq
      simp [hlt]
    · simp only [hheap q hq, or_iff_left hq]

theorem inv_startAccept (h : Inv accepts s) (junk : List UInt8) :
    Inv (accepts + 1) (startAccept junk s) := by
  have hnone : s.heap s.next = none := by
    by_contra hne
    exact Nat.lt_irrefl _ (h.below _ hne)
  have hnew : s.next ∉ s.ops.map Op.session := fun hin => (h.live _).mpr hin hnone
  have hoff : Off s.next s { startAccept junk s with next := s.next } :=
    ⟨fun q hq => update_of_ne hq .., fun _ _ => rfl, fun _ _ => rfl, rfl⟩
  have hfresh := h.fresh s.next (Nat.le_refl _)
  refine ⟨?_, fun q => ?_, fun q hq => ?_, ?_, fun o ho => ?_,
    fun q hq => h.fresh q (Nat.le_of_succ_le hq), h.echoed, h.once, fun q => ?_⟩
  · rw [startAccept, List.map_append, List.map_singleton]
    exact List.nodup_append.mpr ⟨h.nodup, List.pairwise_singleton .., fun x hx y hy => by
      rw [List.mem_singleton.mp hy]
      rintro rfl
      exact hnew hx⟩
  · rw [startAccept, List.map_append, List.map_singleton, List.mem_append, List.mem_singleton,
      ← h.live q]
    by_cases hq : q = s.next
    · subst hq
      simp [Op.session]
    · simp [Op.session, hq]
  · by_cases hq' : q = s.next
    · subst hq'
      exact Nat.lt_succ_self _
    · have hold : s.heap q ≠ none := by rwa [← hoff.heap q hq']
      exact Nat.lt_succ_of_lt (h.below q hold)
  · rw [startAccept, List.countP_append, h.accepts]
    rfl
  · rcases List.mem_append.mp ho with ho | ho
    · have hne : o.session ≠ s.next := fun heq => hnew (heq ▸ List.mem_map_of_mem ho)
      have hok := (h.ok o ho).off hoff hne
      cases o <;> exact hok
    · rw [List.mem_singleton.mp ho]
      exact hfresh
  · rw [show (startAccept junk s).deleted = s.deleted from rfl, h.gone q]
    by_cases hq : q = s.next
    · subst hq
      simp [startAccept]
    · have hlt : q < s.next + 1 ↔ q < s.next := by omega
      simp only [startAccept, update_of_ne hq, hlt]

-- ---------------------------------------------------------------------------
-- No handler is called on a session that is gone
-- ---------------------------------------------------------------------------

/-- The next read into a cleared buffer, once all is echoed. -/
theorem Inv.armRead (h : Inv accepts s) (hops : s.ops = op :: ops)
    (hwire : s.wire op.session = (s.received op.session).flatten) {n : Nat}
    (hcount : n + op.isAccept.toNat = accepts) :
    ∃ s', AsyncServer01.armRead { s with ops := ops } op.session = some s' ∧ Inv n s' := by
  obtain ⟨⟨data, hdata⟩, -⟩ := h.head hops
  let s' : State := { s with
    heap := update s.heap op.session (some (List.replicate maxLength 0))
    ops := ops ++ [.read op.session] }
  have hoff : Off op.session s s' :=
    ⟨fun q hq => update_of_ne hq .., fun _ _ => rfl, fun _ _ => rfl, rfl⟩
  have hheap : s'.heap op.session = some (List.replicate maxLength 0) := update_self ..
  refine ⟨s', by rw [AsyncServer01.armRead, hdata]; rfl, ?_⟩
  exact h.replace hops (.read op.session) rfl rfl hoff rfl (by rw [hheap]; simp) ⟨hheap, hwire⟩
    (h.echoed _) (by simpa [Op.isAccept] using hcount)

/-- The bytes of a chunk go into the buffer, and all of them are to be written. -/
theorem Inv.handleRead (h : Inv accepts s) (hops : s.ops = .read id :: ops) {chunk : List UInt8}
    (hlen : chunk.length ≤ maxLength) :
    ∃ s', AsyncServer01.handleRead { s with ops := ops } id (some chunk) = some s' ∧
      Inv accepts s' := by
  obtain ⟨hheap, hwire⟩ := h.ok (.read id) (by rw [hops]; exact List.mem_cons_self)
  let data := List.replicate maxLength (0 : UInt8)
  let s' : State := { s with
    heap := update s.heap id (some (store data 0 chunk))
    ops := ops ++ [.write id chunk.length 0]
    received := update s.received id (s.received id ++ [chunk]) }
  have hoff : Off id s s' :=
    ⟨fun q hq => update_of_ne hq .., fun q hq => update_of_ne hq .., fun _ _ => rfl, rfl⟩
  have hstore : store data 0 chunk = chunk ++ data.drop chunk.length :=
    store_append [] data chunk (by simpa [data] using hlen)
  have hheap' : s'.heap id = some (chunk ++ data.drop chunk.length) := by
    rw [← hstore]
    exact update_self ..
  have hreceived : s'.received id = s.received id ++ [chunk] := update_self ..
  have hok : (Op.write id chunk.length 0).Ok s' :=
    ⟨s.received id, chunk, _, hreceived, rfl, hheap', Nat.zero_le _, by
      rw [List.take_zero, List.append_nil]
      exact hwire⟩
  refine ⟨s', by rw [AsyncServer01.handleRead, hheap]; rfl, ?_⟩
  have hlive : s'.heap id ≠ none := by
    rw [hheap']
    exact Option.some_ne_none _
  refine h.replace hops (.write id chunk.length 0) rfl rfl hoff rfl hlive hok ?_ rfl
  show s.wire id <+: (s'.received id).flatten
  rw [hreceived, hwire, List.flatten_append]
  exact List.prefix_append ..

theorem Inv.transmit (h : Inv accepts s) {len sent k : Nat}
    (hops : s.ops = .write id len sent :: ops) (hk : sent + k ≤ len) :
    ∃ s', AsyncServer01.transmit { s with ops := ops } id len sent k = some s' ∧
      Inv accepts s' := by
  obtain ⟨before, chunk, tail, hreceived, hlen, hheap, -, hwire⟩ :=
    h.ok (.write id len sent) (by rw [hops]; exact List.mem_cons_self)
  subst hlen
  let s' : State := { s with
    ops := ops ++ [.write id chunk.length (sent + k)]
    wire := update s.wire id (s.wire id ++ load (chunk ++ tail) sent k) }
  have hoff : Off id s s' :=
    ⟨fun _ _ => rfl, fun _ _ => rfl, fun q hq => update_of_ne hq .., rfl⟩
  have hload : load (chunk ++ tail) sent k = (chunk.drop sent).take k := by
    rw [load_eq (by rw [List.length_append]; omega), List.drop_append_of_le_length (by omega),
      List.take_append_of_le_length (by rw [List.length_drop]; omega)]
  have hwire' : s'.wire id = before.flatten ++ chunk.take (sent + k) := by
    show update s.wire id _ id = _
    rw [update_self, hwire, hload, List.append_assoc, List.take_add]
  have hok : (Op.write id chunk.length (sent + k)).Ok s' :=
    ⟨before, chunk, tail, hreceived, rfl, hheap, hk, hwire'⟩
  refine ⟨s', by rw [AsyncServer01.transmit, hheap]; rfl, ?_⟩
  have hlive : s'.heap id ≠ none := by
    show s.heap id ≠ none
    rw [hheap]
    exact Option.some_ne_none _
  refine h.replace hops (.write id chunk.length (sent + k)) rfl rfl hoff rfl hlive hok ?_ rfl
  show s'.wire id <+: (s.received id).flatten
  rw [hwire', hreceived, List.flatten_append, List.flatten_singleton, List.prefix_append_right_inj]
  exact List.take_prefix ..

theorem handler_ok (h : Inv 1 s) (hops : s.ops = op :: ops) (hallows : op.Allows a) :
    ∃ s', op.go { s with ops := ops } a = some s' ∧ Inv 1 s' := by
  have hok := h.ok op (by rw [hops]; exact List.mem_cons_self)
  cases op <;> cases a <;> simp only [Op.Allows] at hallows
  case accept.accept id i error junk =>
    obtain ⟨hreceived, hwire⟩ := hok
    have hflat : s.wire id = (s.received id).flatten := by rw [hreceived, hwire, List.flatten_nil]
    cases error with
    | true =>
      obtain ⟨s₁, hdel, hinv⟩ := h.delete (n := 0) hops rfl
      exact ⟨startAccept junk s₁, by simpa [Op.go, handleAccept, Op.session] using ⟨s₁, hdel, rfl⟩,
        inv_startAccept hinv junk⟩
    | false =>
      obtain ⟨s₁, harm, hinv⟩ := h.armRead (n := 0) hops hflat rfl
      exact ⟨startAccept junk s₁, by simpa [Op.go, handleAccept, Op.session] using ⟨s₁, harm, rfl⟩,
        inv_startAccept hinv junk⟩
  case read.read id i result =>
    cases result with
    | none => exact h.delete hops rfl
    | some chunk => exact h.handleRead hops hallows.2
  case write.transmit id len sent i k => exact h.transmit hops hallows.2
  case write.write id len sent i error =>
    cases error with
    | true => exact h.delete hops rfl
    | false =>
      have hsent := hallows.resolve_left Bool.false_ne_true
      obtain ⟨before, chunk, tail, hreceived, rfl, -, -, hwire⟩ := hok
      refine h.armRead hops ?_ rfl
      simp only [Op.session]
      rw [hwire, hreceived, hsent, List.take_length, List.flatten_append, List.flatten_singleton]

/-- What may happen to an operation does, and never to a session that is gone. -/
theorem step_ok (h : Inv 1 s) (hop : s.ops[a.index]? = some op) (hallows : op.Allows a) :
    ∃ s', step s a = some s' ∧ Inv 1 s' := by
  obtain ⟨s', hgo, hinv⟩ := handler_ok (h.perm (perm_cons_eraseIdx hop)) rfl hallows
  exact ⟨s', by simpa only [step, hop, if_pos hallows] using hgo, hinv⟩

theorem inv_step (h : Inv 1 s) (hstep : step s a = some s') : Inv 1 s' := by
  cases hop : s.ops[a.index]? with
  | none => simp [step, hop] at hstep
  | some op =>
    by_cases hallows : op.Allows a
    · obtain ⟨s₁, hstep₁, hinv⟩ := step_ok h hop hallows
      rw [hstep] at hstep₁
      exact Option.some.inj hstep₁ ▸ hinv
    · simp [step, hop, hallows] at hstep

theorem inv_reachable {junk : List UInt8} (h : (system junk).Reachable anyStep s) : Inv 1 s := by
  refine h.invariant (P := Inv 1) (inv_startAccept ?_ junk) fun _ _ _ h _ hstep => inv_step h hstep
  exact ⟨List.nodup_nil, by simp, by simp, rfl, by simp, by simp, by simp, List.nodup_nil, by simp⟩

/-- The zeros behind the bytes end the text, unless the bytes fill the buffer. -/
theorem logAccess_inBounds {chunk : List UInt8} (hlen : chunk.length ≤ maxLength) :
    (logAccess (store (List.replicate maxLength 0) 0 chunk)).InBounds ↔
      chunk.length < maxLength ∨ 0 ∈ chunk := by
  have hstore : store (List.replicate maxLength 0) 0 chunk =
      chunk ++ List.replicate (maxLength - chunk.length) 0 := by
    have h := store_append [] (List.replicate maxLength 0) chunk (by simpa using hlen)
    rwa [List.drop_replicate] at h
  have hdata :
      (chunk ++ List.replicate (maxLength - chunk.length) (0 : UInt8)).length = maxLength := by
    rw [List.length_append, List.length_replicate]
    omega
  have hlt : (logAccess (store (List.replicate maxLength 0) 0 chunk)).InBounds ↔
      (cstr (chunk ++ List.replicate (maxLength - chunk.length) 0)).length <
        (chunk ++ List.replicate (maxLength - chunk.length) (0 : UInt8)).length := by
    rw [hstore, hdata, logAccess, Access.InBounds]
    omega
  rw [hlt, length_cstr_lt_iff, List.mem_append, List.mem_replicate, or_comm]
  refine or_congr ?_ Iff.rfl
  constructor
  · rintro ⟨hpos, -⟩
    omega
  · exact fun hpos => ⟨by omega, rfl⟩

/-- In every run: whatever completes finds its session, one accept is begun, each session that
lives has one operation, and a session is deleted once and then has none. The peer has got a
prefix of what it sent, and all of it whenever the session reads. What `handle_read` logs ends
inside `_data` unless the bytes fill it and none of them is NUL. -/
theorem sessions_echo_and_end {junk : List UInt8} (h : (system junk).Reachable anyStep s) :
    (∀ a op, s.ops[a.index]? = some op → op.Allows a → ∃ s', (system junk).step s a = some s') ∧
    s.ops.countP Op.isAccept = 1 ∧
    (∀ id, (s.ops.map Op.session).count id = if (s.heap id).isSome then 1 else 0) ∧
    (∀ id, s.deleted.count id = if id < s.next ∧ s.heap id = none then 1 else 0) ∧
    (∀ id, s.wire id <+: (s.received id).flatten) ∧
    (∀ id, .read id ∈ s.ops → s.wire id = (s.received id).flatten ∧
      ∃ data, s.heap id = some data ∧ ∀ chunk : List UInt8, chunk.length ≤ maxLength →
        ((logAccess (store data 0 chunk)).InBounds ↔ chunk.length < maxLength ∨ 0 ∈ chunk)) := by
  have hinv := inv_reachable h
  refine ⟨fun a op hop hallows => ?_, hinv.accepts, fun id => ?_, fun id => ?_, hinv.echoed,
    fun id hread => ?_⟩
  · obtain ⟨s', hstep, -⟩ := step_ok hinv hop hallows
    exact ⟨s', hstep⟩
  · rw [hinv.nodup.count]
    have hlive := hinv.live id
    simp only [← hlive, Option.isSome_iff_ne_none]
  · rw [hinv.once.count]
    simp only [hinv.gone id]
  · obtain ⟨hheap, hwire⟩ := hinv.ok _ hread
    exact ⟨hwire, _, hheap, fun chunk hlen => logAccess_inBounds hlen⟩

/-- A peer sends two bytes, gets them back one by one, and closes. -/
theorem sessions_echo_and_end_one : ∃ s, (system []).Reachable anyStep s ∧
    s.received 0 = [[72, 105]] ∧ s.wire 0 = [72, 105] ∧ s.deleted.count 0 = 1 := by
  obtain ⟨s, hs, hcheck⟩ := reachable_of_exec (system [])
    [.accept 0 false [], .read 0 (some [72, 105]), .transmit 1 1, .transmit 1 1, .write 1 false,
      .read 1 none]
    (fun s => s.received 0 == [[72, 105]] && s.wire 0 == [72, 105] && s.next == 2 && s.heap 0 == none)
    (by decide +kernel)
  simp only [Bool.and_eq_true, beq_iff_eq] at hcheck
  obtain ⟨⟨⟨hreceived, hwire⟩, hnext⟩, hheap⟩ := hcheck
  obtain ⟨-, -, -, honce, -⟩ := sessions_echo_and_end hs
  refine ⟨s, hs, hreceived, hwire, ?_⟩
  rw [honce, hnext, hheap]
  rfl

end DdsAuto.AsyncServer01
