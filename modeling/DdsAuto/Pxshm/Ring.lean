import DdsAuto.Lib.Lts
import DdsAuto.Lib.Ring
import DdsAuto.Lib.Threads
import Mathlib.Data.Finset.Card

/-!
# The message ring of `pxshm`: `client2` and `server2`

Clients reserve a slot of a ring under `mutex`, copy their message into it
outside, and post `nstored`; the server waits for `nstored` and prints the
slots in turn. Every semaphore operation is a step, and so are the `strcpy` and
the `printf` of a slot. The `k`-th reservation is turn `k`.

`nstored` counts messages without naming them. A client that reserved later but
copied sooner lets the server go on to a slot that is still to be filled.
-/

namespace DdsAuto.Pxshm

open Function Threads Lts

def MESGSIZE : Nat := 256

def NMESG : Nat := 16

/-- `snprintf(mesg, MESGSIZE, ..)`. -/
def mesg (pid i : Nat) : String :=
  String.ofList ((s!"pid {pid}: message {i}").toList.take (MESGSIZE - 1))

/-- `ptr->msgoff[index]`, as the server sets it. -/
def msgoff (index : Nat) : Nat := index * MESGSIZE

/-- `struct shmstruct`; `msgdata` maps an offset to the string that starts there. -/
structure Shmstruct where
  mutex : Nat
  nempty : Nat
  nstored : Nat
  nput : Nat
  noverflow : Nat
  noverflowmutex : Nat
  msgdata : Nat → String

/-- Where a client is: before the operation named. A turn is known from the
reservation to the post. -/
inductive ClientPc
  | trywait
  | waitMutex
  | reserve
  | postMutex (turn : Nat)
  | copy (turn : Nat)
  | postStored (turn : Nat)
  | waitOverflow
  | addOverflow
  | postOverflow
  deriving DecidableEq, Repr

structure Client where
  pc : ClientPc
  i : Nat
  offset : Nat
  deriving DecidableEq, Repr

inductive ServerPc
  | waitStored
  | waitMutex
  | print
  | postMutex
  | postEmpty
  | waitOverflow
  | readOverflow
  | postOverflow
  deriving DecidableEq, Repr

structure Server where
  pc : ServerPc
  index : Nat
  lastnoverflow : Nat
  temp : Nat
  deriving DecidableEq, Repr

/-- The shared memory, the processes and what has happened: the messages in the
order of their reservations, the turns copied and posted, the failed trywaits,
and the two kinds of line the server has printed. -/
structure State (C : Type) where
  shm : Shmstruct
  client : C → Client
  server : Server
  turns : List String
  copied : Finset Nat
  posted : Finset Nat
  failed : Nat
  printed : List (Nat × String)
  overflows : List Nat

inductive Label (C : Type)
  | client (c : C)
  | server

/-- The process ids and the numbers of messages. -/
structure Args (C : Type) where
  pid : C → Nat
  nloop : C → Nat

variable {C : Type} [DecidableEq C]

def State.setClient (s : State C) (c : C) (x : Client) : State C :=
  { s with client := update s.client c x }

/-- A step of the loop of `client2`. -/
def clientStep (args : Args C) (s : State C) (c : C) : Option (State C) :=
  let x := s.client c
  let shm := s.shm
  match x.pc with
  | .trywait =>
    if x.i < args.nloop c then
      if 0 < shm.nempty then
        let s' := { s with shm := { shm with nempty := shm.nempty - 1 } }
        some (s'.setClient c { x with pc := .waitMutex })
      else
        let s' := { s with failed := s.failed + 1 }
        some (s'.setClient c { x with pc := .waitOverflow })
    else none
  | .waitMutex =>
    if 0 < shm.mutex then
      let s' := { s with shm := { shm with mutex := shm.mutex - 1 } }
      some (s'.setClient c { x with pc := .reserve })
    else none
  | .reserve =>
    let s' := { s with
      shm := { shm with nput := if shm.nput + 1 ≥ NMESG then 0 else shm.nput + 1 }
      turns := s.turns ++ [mesg (args.pid c) x.i] }
    some (s'.setClient c { x with pc := .postMutex s.turns.length, offset := msgoff shm.nput })
  | .postMutex turn =>
    let s' := { s with shm := { shm with mutex := shm.mutex + 1 } }
    some (s'.setClient c { x with pc := .copy turn })
  | .copy turn =>
    let s' := { s with
      shm := { shm with msgdata := update shm.msgdata x.offset (mesg (args.pid c) x.i) }
      copied := insert turn s.copied }
    some (s'.setClient c { x with pc := .postStored turn })
  | .postStored turn =>
    let s' := { s with
      shm := { shm with nstored := shm.nstored + 1 }
      posted := insert turn s.posted }
    some (s'.setClient c { x with pc := .trywait, i := x.i + 1 })
  | .waitOverflow =>
    if 0 < shm.noverflowmutex then
      let s' := { s with shm := { shm with noverflowmutex := shm.noverflowmutex - 1 } }
      some (s'.setClient c { x with pc := .addOverflow })
    else none
  | .addOverflow =>
    let s' := { s with shm := { shm with noverflow := shm.noverflow + 1 } }
    some (s'.setClient c { x with pc := .postOverflow })
  | .postOverflow =>
    let s' := { s with shm := { shm with noverflowmutex := shm.noverflowmutex + 1 } }
    some (s'.setClient c { x with pc := .trywait, i := x.i + 1 })

/-- A step of the loop of `server2`. -/
def serverStep (s : State C) : Option (State C) :=
  let x := s.server
  let shm := s.shm
  match x.pc with
  | .waitStored =>
    if 0 < shm.nstored then
      some { s with shm := { shm with nstored := shm.nstored - 1 }, server := { x with pc := .waitMutex } }
    else none
  | .waitMutex =>
    if 0 < shm.mutex then
      some { s with shm := { shm with mutex := shm.mutex - 1 }, server := { x with pc := .print } }
    else none
  | .print =>
    let offset := msgoff x.index
    let x' := { x with pc := .postMutex, index := if x.index + 1 ≥ NMESG then 0 else x.index + 1 }
    some { s with printed := s.printed ++ [(x.index, shm.msgdata offset)], server := x' }
  | .postMutex =>
    some { s with shm := { shm with mutex := shm.mutex + 1 }, server := { x with pc := .postEmpty } }
  | .postEmpty =>
    some { s with shm := { shm with nempty := shm.nempty + 1 }, server := { x with pc := .waitOverflow } }
  | .waitOverflow =>
    if 0 < shm.noverflowmutex then
      let shm' := { shm with noverflowmutex := shm.noverflowmutex - 1 }
      some { s with shm := shm', server := { x with pc := .readOverflow } }
    else none
  | .readOverflow => some { s with server := { x with pc := .postOverflow, temp := shm.noverflow } }
  | .postOverflow =>
    let shm' := { shm with noverflowmutex := shm.noverflowmutex + 1 }
    if x.temp ≠ x.lastnoverflow then
      let x' := { x with pc := .waitStored, lastnoverflow := x.temp }
      some { s with shm := shm', server := x', overflows := s.overflows ++ [x.temp] }
    else some { s with shm := shm', server := { x with pc := .waitStored } }

def step (args : Args C) (s : State C) : Label C → Option (State C)
  | .client c => clientStep args s c
  | .server => serverStep s

/-- The shared memory as the server leaves it before its loop. -/
def system (args : Args C) : Lts (State C) (Label C) where
  init := {
    shm := ⟨1, NMESG, 0, 0, 0, 1, fun _ => ""⟩
    client := fun _ => ⟨.trywait, 0, 0⟩
    server := ⟨.waitStored, 0, 0, 0⟩
    turns := []
    copied := ∅
    posted := ∅
    failed := 0
    printed := []
    overflows := [] }
  step := step args

/-- The turn a client has and has not posted. -/
def ClientPc.turn : ClientPc → Option Nat
  | .postMutex r | .copy r | .postStored r => some r
  | _ => none

/-- Its trywait has failed and is not counted yet. -/
def ClientPc.counting : ClientPc → Nat
  | .waitOverflow | .addOverflow => 1
  | _ => 0

/-- What the ring promises in every state. -/
structure Correct (s : State C) : Prop where
  /-- The messages printed are those of the first turns, each from its slot. -/
  inOrder : s.printed <+: s.turns.mapIdx fun k m => (k % NMESG, m)
  copiedFirst : ∀ k < s.printed.length, k ∈ s.copied
  kept : ∀ k ∈ s.copied, s.printed.length ≤ k → ∀ m ∈ s.turns[k]?,
    s.shm.msgdata (msgoff (k % NMESG)) = m
  overflow_le : s.shm.noverflow ≤ s.failed
  overflow_eq : (∀ c, (s.client c).pc.counting = 0) → s.shm.noverflow = s.failed

/-- A client posts `nstored` only when every turn before its own is copied. -/
def PostsInTurn (s : State C) : Label C → Prop
  | .client c => ∀ r, (s.client c).pc = .postStored r → ∀ q < r, q ∈ s.copied
  | .server => True

-- ---------------------------------------------------------------------------
-- The invariant
-- ---------------------------------------------------------------------------

/-- It has taken `nempty` and not reserved a slot. -/
def ClientPc.holdsEmpty : ClientPc → Nat
  | .waitMutex | .reserve => 1
  | _ => 0

/-- It has taken `nstored` and not printed. -/
def ServerPc.holdsStored : ServerPc → Nat
  | .waitMutex | .print => 1
  | _ => 0

/-- It has printed and not posted the slot. -/
def ServerPc.owesEmpty : ServerPc → Nat
  | .postMutex | .postEmpty => 1
  | _ => 0

section
variable [Fintype C]

def State.holdsEmpty (s : State C) : Nat := total (fun x => x.pc.holdsEmpty) s.client

def State.counting (s : State C) : Nat := total (fun x => x.pc.counting) s.client

end

/-- A client with a turn: the slot is the turn's, the message is the one it
reserved for, and it has been copied exactly if the client is past `strcpy`. -/
structure ClientOk (pid : Nat) (s : State C) (x : Client) : Prop where
  unposted : ∀ r, x.pc.turn = some r → r ∉ s.posted
  offset : ∀ r, x.pc.turn = some r → x.offset = msgoff (r % NMESG)
  mine : ∀ r, x.pc.turn = some r → s.turns[r]? = some (mesg pid x.i)
  copied : ∀ r, x.pc.turn = some r → (x.pc = .postStored r ↔ r ∈ s.copied)

/-- The tokens, the positions and what lies in the slots. -/
structure Inv [Fintype C] (args : Args C) (s : State C) : Prop where
  room : s.shm.nempty + s.holdsEmpty + s.turns.length + s.server.pc.owesEmpty =
    NMESG + s.printed.length
  stored : s.shm.nstored + s.server.pc.holdsStored + s.printed.length = s.posted.card
  counted : s.shm.noverflow + s.counting = s.failed
  nput : s.shm.nput = s.turns.length % NMESG
  index : s.server.index = s.printed.length % NMESG
  client : ∀ c, ClientOk (args.pid c) s (s.client c)
  unique : ∀ c d r, (s.client c).pc.turn = some r → (s.client d).pc.turn = some r → c = d
  copied_lt : ∀ r ∈ s.copied, r < s.turns.length
  posted_copied : s.posted ⊆ s.copied
  orderly : ∀ r ∈ s.posted, ∀ q < r, q ∈ s.copied
  printed : s.printed <+: s.turns.mapIdx fun k m => (k % NMESG, m)
  printed_copied : ∀ k < s.printed.length, k ∈ s.copied
  kept : ∀ k ∈ s.copied, s.printed.length ≤ k →
    s.turns[k]? = some (s.shm.msgdata (msgoff (k % NMESG)))

variable [Fintype C] {args : Args C} {s s' : State C} {c : C}

omit [DecidableEq C] [Fintype C] in
theorem ClientOk.idle {x : Client} (h : x.pc.turn = none) : ClientOk pid s x where
  unposted r hr := by rw [h] at hr; cases hr
  offset r hr := by rw [h] at hr; cases hr
  mine r hr := by rw [h] at hr; cases hr
  copied r hr := by rw [h] at hr; cases hr

theorem holdsEmpty_update (s : State C) (c : C) (x : Client) :
    total (fun x : Client => x.pc.holdsEmpty) (update s.client c x) +
      (s.client c).pc.holdsEmpty = s.holdsEmpty + x.pc.holdsEmpty :=
  total_update (fun x : Client => x.pc.holdsEmpty) s.client c x

theorem counting_update (s : State C) (c : C) (x : Client) :
    total (fun x : Client => x.pc.counting) (update s.client c x) + (s.client c).pc.counting =
      s.counting + x.pc.counting :=
  total_update (fun x : Client => x.pc.counting) s.client c x

/-- The tokens are as before where a client holds as many as before. -/
theorem Inv.room_keep (h : Inv args s) {x : Client}
    (hx : (s.client c).pc.holdsEmpty = x.pc.holdsEmpty) :
    s.shm.nempty + total (fun x : Client => x.pc.holdsEmpty) (update s.client c x) +
      s.turns.length + s.server.pc.owesEmpty = NMESG + s.printed.length := by
  rw [total_update_eq (fun x : Client => x.pc.holdsEmpty) s.client c x hx]
  exact h.room

theorem Inv.counted_keep (h : Inv args s) {x : Client}
    (hx : (s.client c).pc.counting = x.pc.counting) :
    s.shm.noverflow + total (fun x : Client => x.pc.counting) (update s.client c x) = s.failed := by
  rw [total_update_eq (fun x : Client => x.pc.counting) s.client c x hx]
  exact h.counted

omit [Fintype C] in
/-- One client's point changes; the turns of the others stay its own. -/
theorem unique_update
    (h : ∀ c d r, (s.client c).pc.turn = some r → (s.client d).pc.turn = some r → c = d)
    {x : Client} (hx : ∀ d r, d ≠ c → x.pc.turn = some r → (s.client d).pc.turn ≠ some r) :
    ∀ a d r, (update s.client c x a).pc.turn = some r → (update s.client c x d).pc.turn = some r →
      a = d := by
  intro a d r ha hd
  by_cases hac : a = c
  · by_cases hdc : d = c
    · exact hac.trans hdc.symm
    · subst hac
      rw [update_self] at ha
      rw [update_of_ne hdc] at hd
      exact absurd hd (hx d r hdc ha)
  · rw [update_of_ne hac] at ha
    by_cases hdc : d = c
    · subst hdc
      rw [update_self] at hd
      exact absurd ha (hx a r hac hd)
    · rw [update_of_ne hdc] at hd
      exact h a d r ha hd

/-- A client's semaphore operation, or its count of an overflow. -/
theorem Inv.clientSem (h : Inv args s) (c : C) (x : Client) (m e o om f : Nat)
    (hroom : e + x.pc.holdsEmpty = s.shm.nempty + (s.client c).pc.holdsEmpty)
    (hcount : o + x.pc.counting + s.failed = s.shm.noverflow + (s.client c).pc.counting + f)
    (hx : ClientOk (args.pid c) s x)
    (hturn : ∀ r, x.pc.turn = some r → (s.client c).pc.turn = some r) :
    Inv args { s with
      shm := { s.shm with mutex := m, nempty := e, noverflow := o, noverflowmutex := om }
      failed := f
      client := update s.client c x } where
  room := by
    have hw := holdsEmpty_update s c x
    have hold := h.room
    show e + total (fun x : Client => x.pc.holdsEmpty) (update s.client c x) + s.turns.length +
      s.server.pc.owesEmpty = NMESG + s.printed.length
    omega
  stored := h.stored
  counted := by
    have hw := counting_update s c x
    have hold := h.counted
    show o + total (fun x : Client => x.pc.counting) (update s.client c x) = f
    omega
  nput := h.nput
  index := h.index
  client := by
    refine (forall_update_iff s.client fun d y => ClientOk (args.pid d) _ y).mpr
      ⟨⟨hx.unposted, hx.offset, hx.mine, hx.copied⟩, fun d _ => ?_⟩
    have hd := h.client d
    exact ⟨hd.unposted, hd.offset, hd.mine, hd.copied⟩
  unique := unique_update h.unique fun d r hdc hr hd => hdc (h.unique d c r hd (hturn r hr))
  copied_lt := h.copied_lt
  posted_copied := h.posted_copied
  orderly := h.orderly
  printed := h.printed
  printed_copied := h.printed_copied
  kept := h.kept

omit [DecidableEq C] in
/-- A step of the server that prints no message. -/
theorem Inv.serverSem (h : Inv args s) (x : Server) (m e n om : Nat) (os : List Nat)
    (hroom : e + x.pc.owesEmpty = s.shm.nempty + s.server.pc.owesEmpty)
    (hstored : n + x.pc.holdsStored = s.shm.nstored + s.server.pc.holdsStored)
    (hindex : x.index = s.server.index) :
    Inv args { s with
      shm := { s.shm with mutex := m, nempty := e, nstored := n, noverflowmutex := om }
      server := x
      overflows := os } where
  room := by
    have hold := h.room
    show e + s.holdsEmpty + s.turns.length + x.pc.owesEmpty = NMESG + s.printed.length
    omega
  stored := by
    have hold := h.stored
    show n + x.pc.holdsStored + s.printed.length = s.posted.card
    omega
  counted := h.counted
  nput := h.nput
  index := hindex.trans h.index
  client d := by
    have hd := h.client d
    exact ⟨hd.unposted, hd.offset, hd.mine, hd.copied⟩
  unique := h.unique
  copied_lt := h.copied_lt
  posted_copied := h.posted_copied
  orderly := h.orderly
  printed := h.printed
  printed_copied := h.printed_copied
  kept := h.kept

-- ---------------------------------------------------------------------------
-- The four steps that touch the ring
-- ---------------------------------------------------------------------------

omit [DecidableEq C] [Fintype C] in
theorem ClientOk.turn_lt {x : Client} (h : ClientOk pid s x) (hr : x.pc.turn = some r) :
    r < s.turns.length := by
  have hmine := h.mine r hr
  exact (List.getElem?_eq_some_iff.mp hmine).1

omit [DecidableEq C] in
/-- The turns between the printed ones and the reserved ones fit in the ring. -/
theorem Inv.turns_le (h : Inv args s) : s.turns.length ≤ s.printed.length + NMESG := by
  have hroom := h.room
  omega

omit [DecidableEq C] in
theorem Inv.printed_le (h : Inv args s) (hr : r ∉ s.copied) : s.printed.length ≤ r := by
  by_contra hlt
  exact hr (h.printed_copied r (Nat.lt_of_not_le hlt))

theorem Inv.reserve (h : Inv args s) (hc : (s.client c).pc = .reserve) (m : String)
    (hm : m = mesg (args.pid c) (s.client c).i) (x : Client) (hx : x.pc = .postMutex s.turns.length)
    (hi : x.i = (s.client c).i) (hoff : x.offset = msgoff s.shm.nput) :
    Inv args { s with
      shm := { s.shm with nput := if s.shm.nput + 1 ≥ NMESG then 0 else s.shm.nput + 1 }
      turns := s.turns ++ [m]
      client := update s.client c x } where
  room := by
    have hw := holdsEmpty_update s c x
    have hold := h.room
    have hlen : (s.turns ++ [m]).length = s.turns.length + 1 := List.length_append
    rw [hc, hx] at hw
    change _ + 1 = s.holdsEmpty + 0 at hw
    show s.shm.nempty + total (fun x : Client => x.pc.holdsEmpty) (update s.client c x) +
      (s.turns ++ [m]).length + s.server.pc.owesEmpty = NMESG + s.printed.length
    omega
  stored := h.stored
  counted := h.counted_keep (by rw [hc, hx]; rfl)
  nput := by
    show (if s.shm.nput + 1 ≥ NMESG then 0 else s.shm.nput + 1) = (s.turns ++ [m]).length % NMESG
    rw [h.nput, List.length_append]
    exact Ring.wrap_succ (by decide) _
  index := h.index
  client := by
    refine (forall_update_iff s.client fun d y => ClientOk (args.pid d) _ y).mpr
      ⟨?_, fun d _ => ?_⟩
    · have hfresh : s.turns.length ∉ s.copied := fun hin =>
        Nat.lt_irrefl _ (h.copied_lt _ hin)
      refine ⟨?_, ?_, ?_, ?_⟩ <;> intro r hr <;> rw [hx] at hr <;> cases hr
      · exact fun hin => hfresh (h.posted_copied hin)
      · exact hoff.trans (congrArg msgoff h.nput)
      · show (s.turns ++ [m])[s.turns.length]? = some (mesg (args.pid c) x.i)
        rw [List.getElem?_concat_length, hm, hi]
      · rw [hx]
        exact ⟨fun hpc => (nomatch hpc), fun hin => absurd hin hfresh⟩
    · have hd := h.client d
      refine ⟨hd.unposted, hd.offset, fun r hr => ?_, hd.copied⟩
      show (s.turns ++ [m])[r]? = _
      rw [List.getElem?_append_left (hd.turn_lt hr)]
      exact hd.mine r hr
  unique := unique_update h.unique fun d r hdc hr hd => by
    rw [hx] at hr
    cases hr
    exact Nat.lt_irrefl _ ((h.client d).turn_lt hd)
  copied_lt r hr := by
    show r < (s.turns ++ [m]).length
    rw [List.length_append]
    exact Nat.lt_succ_of_lt (h.copied_lt r hr)
  posted_copied := h.posted_copied
  orderly := h.orderly
  printed := by
    show s.printed <+: (s.turns ++ [m]).mapIdx _
    rw [List.mapIdx_concat]
    exact h.printed.trans (List.prefix_append _ _)
  printed_copied := h.printed_copied
  kept k hk hle := by
    show (s.turns ++ [m])[k]? = _
    rw [List.getElem?_append_left (h.copied_lt k hk)]
    exact h.kept k hk hle

/-- `strcpy` fills the slot of a turn not yet copied; no slot still to be
printed is the same one. -/
theorem Inv.copy (h : Inv args s) (hc : (s.client c).pc = .copy r) (x : Client)
    (hx : x.pc = .postStored r) (hi : x.i = (s.client c).i)
    (hoff : x.offset = (s.client c).offset) :
    Inv args { s with
      shm := { s.shm with
        msgdata := update s.shm.msgdata (s.client c).offset (mesg (args.pid c) (s.client c).i) }
      copied := insert r s.copied
      client := update s.client c x } where
  room := h.room_keep (by rw [hc, hx]; rfl)
  stored := h.stored
  counted := h.counted_keep (by rw [hc, hx]; rfl)
  nput := h.nput
  index := h.index
  client := by
    have hr : (s.client c).pc.turn = some r := by rw [hc]; rfl
    refine (forall_update_iff s.client fun d y => ClientOk (args.pid d) _ y).mpr
      ⟨?_, fun d hdc => ?_⟩
    · have hown := h.client c
      refine ⟨?_, ?_, ?_, ?_⟩ <;> intro q hq <;> rw [hx] at hq <;> cases hq
      · exact hown.unposted r hr
      · exact hoff.trans (hown.offset r hr)
      · rw [hi]
        exact hown.mine r hr
      · exact ⟨fun _ => Finset.mem_insert_self r s.copied, fun _ => hx⟩
    · have hd := h.client d
      refine ⟨hd.unposted, hd.offset, hd.mine, fun q hq => ?_⟩
      have hne : q ≠ r := by
        rintro rfl
        exact hdc (h.unique d c q hq hr)
      show _ ↔ q ∈ insert r s.copied
      rw [Finset.mem_insert, or_iff_right hne]
      exact hd.copied q hq
  unique := unique_update h.unique fun d q hdc hq hd => by
    rw [hx] at hq
    cases hq
    exact hdc (h.unique d c r hd (by rw [hc]; rfl))
  copied_lt q hq := by
    rcases Finset.mem_insert.mp hq with rfl | hq
    · exact (h.client c).turn_lt (by rw [hc]; rfl)
    · exact h.copied_lt q hq
  posted_copied := h.posted_copied.trans (Finset.subset_insert r s.copied)
  orderly q hq p hp := Finset.mem_insert_of_mem (h.orderly q hq p hp)
  printed := h.printed
  printed_copied k hk := Finset.mem_insert_of_mem (h.printed_copied k hk)
  kept k hk hle := by
    have hr : (s.client c).pc.turn = some r := by rw [hc]; rfl
    have hown := h.client c
    have hnew : r ∉ s.copied := by
      rw [← hown.copied r hr, hc]
      exact fun hpc => (nomatch hpc)
    show s.turns[k]? = some (update s.shm.msgdata (s.client c).offset _ (msgoff (k % NMESG)))
    rw [hown.offset r hr]
    by_cases hkr : k = r
    · rw [hkr, update_self]
      exact hown.mine r hr
    · have hk := (Finset.mem_insert.mp hk).resolve_left hkr
      have hslot : msgoff (k % NMESG) ≠ msgoff (r % NMESG) := by
        intro heq
        have hturns := h.turns_le
        have hlt := h.copied_lt k hk
        have hltr := hown.turn_lt hr
        refine hkr (Ring.eq_of_mod_eq ⟨hle, Nat.lt_of_lt_of_le hlt hturns⟩
          ⟨h.printed_le hnew, Nat.lt_of_lt_of_le hltr hturns⟩ ?_)
        exact Nat.eq_of_mul_eq_mul_right (by decide : 0 < MESGSIZE) heq
      rw [update_of_ne hslot]
      exact h.kept k hk hle

/-- A post in turn: every turn up to this one is copied. -/
theorem Inv.post (h : Inv args s) (hc : (s.client c).pc = .postStored r)
    (hturn : ∀ q < r, q ∈ s.copied) (x : Client) (hx : x.pc = .trywait) :
    Inv args { s with
      shm := { s.shm with nstored := s.shm.nstored + 1 }
      posted := insert r s.posted
      client := update s.client c x } where
  room := h.room_keep (by rw [hc, hx]; rfl)
  stored := by
    have hold := h.stored
    have hnew : r ∉ s.posted := (h.client c).unposted r (by rw [hc]; rfl)
    show s.shm.nstored + 1 + s.server.pc.holdsStored + s.printed.length = (insert r s.posted).card
    rw [Finset.card_insert_of_notMem hnew]
    omega
  counted := h.counted_keep (by rw [hc, hx]; rfl)
  nput := h.nput
  index := h.index
  client := by
    refine (forall_update_iff s.client fun d y => ClientOk (args.pid d) _ y).mpr
      ⟨.idle (by rw [hx]; rfl), fun d hdc => ?_⟩
    have hd := h.client d
    refine ⟨fun q hq => ?_, hd.offset, hd.mine, hd.copied⟩
    show q ∉ insert r s.posted
    rw [Finset.mem_insert, not_or]
    refine ⟨?_, hd.unposted q hq⟩
    rintro rfl
    exact hdc (h.unique d c q hq (by rw [hc]; rfl))
  unique := unique_update h.unique fun d q _ hq => by
    rw [hx] at hq
    cases hq
  copied_lt := h.copied_lt
  posted_copied := by
    have hin : r ∈ s.copied := ((h.client c).copied r (by rw [hc]; rfl)).mp hc
    exact Finset.insert_subset hin h.posted_copied
  orderly q hq := by
    rcases Finset.mem_insert.mp hq with rfl | hq
    · exact hturn
    · exact h.orderly q hq
  printed := h.printed
  printed_copied := h.printed_copied
  kept := h.kept

omit [DecidableEq C] in
/-- Enough posts for one more message: the next turn is copied. -/
theorem Inv.next_copied (h : Inv args s) (hlt : s.printed.length < s.posted.card) :
    s.printed.length ∈ s.copied := by
  obtain ⟨r, hr, hle⟩ : ∃ r ∈ s.posted, s.printed.length ≤ r := by
    by_contra hnone
    push Not at hnone
    have hsub : s.posted ⊆ Finset.range s.printed.length := fun r hr =>
      Finset.mem_range.mpr (hnone r hr)
    have hcard := Finset.card_le_card hsub
    rw [Finset.card_range] at hcard
    omega
  rcases Nat.lt_or_eq_of_le hle with hlt | heq
  · exact h.orderly r hr _ hlt
  · rw [heq]
    exact h.posted_copied hr

theorem prefix_concat {l L : List α} {a : α} (h : l <+: L) (ha : L[l.length]? = some a) :
    l ++ [a] <+: L := by
  obtain ⟨t, rfl⟩ := h
  rw [List.getElem?_append_right (Nat.le_refl _), Nat.sub_self] at ha
  cases t with
  | nil => cases ha
  | cons b t =>
    cases ha
    exact ⟨t, by simp⟩

omit [DecidableEq C] in
/-- The server prints the message of the next turn. -/
theorem Inv.print (h : Inv args s) (hpc : s.server.pc = .print) (x : Server)
    (hx : x.pc = .postMutex)
    (hi : x.index = if s.server.index + 1 ≥ NMESG then 0 else s.server.index + 1) :
    Inv args { s with
      printed := s.printed ++ [(s.server.index, s.shm.msgdata (msgoff s.server.index))]
      server := x } := by
  have hstored := h.stored
  have hroom := h.room
  rw [hpc] at hstored hroom
  simp only [ServerPc.holdsStored, ServerPc.owesEmpty] at hstored hroom
  have hnext := h.next_copied (by omega)
  have hmsg := h.kept _ hnext (Nat.le_refl _)
  have hlen : (s.printed ++ [(s.server.index, s.shm.msgdata (msgoff s.server.index))]).length =
      s.printed.length + 1 := List.length_append
  refine ⟨?_, ?_, h.counted, h.nput, ?_, fun d => ?_, h.unique, h.copied_lt, h.posted_copied,
    h.orderly, ?_, ?_, ?_⟩
  · simp only [hlen, hx, ServerPc.owesEmpty]
    exact congrArg (· + 1) hroom
  · simp only [hlen, hx, ServerPc.holdsStored]
    omega
  · show x.index = (s.printed ++ [_]).length % NMESG
    rw [hlen, hi, h.index]
    exact Ring.wrap_succ (by decide) _
  · have hd := h.client d
    exact ⟨hd.unposted, hd.offset, hd.mine, hd.copied⟩
  · refine prefix_concat h.printed ?_
    rw [List.getElem?_mapIdx, hmsg, h.index]
    rfl
  · intro k hk
    rw [hlen] at hk
    rcases Nat.lt_succ_iff_lt_or_eq.mp hk with hlt | rfl
    · exact h.printed_copied k hlt
    · exact hnext
  · intro k hk hle
    rw [hlen] at hle
    exact h.kept k hk (Nat.le_of_succ_le hle)

-- ---------------------------------------------------------------------------
-- Runs
-- ---------------------------------------------------------------------------

theorem Inv.clientStep (h : Inv args s) (hok : PostsInTurn s (.client c))
    (hstep : clientStep args s c = some s') : Inv args s' := by
  have hc := h.client c
  unfold Pxshm.clientStep at hstep
  cases hpc : (s.client c).pc with
  | trywait =>
    simp only [hpc, Option.ite_none_right_eq_some] at hstep
    obtain ⟨-, hstep⟩ := hstep
    split at hstep
    · rename_i hpos
      cases hstep
      exact h.clientSem c _ _ _ _ _ _ (by rw [hpc]; exact Nat.sub_add_cancel hpos)
        (by rw [hpc]; rfl) (.idle rfl) nofun
    · cases hstep
      refine h.clientSem c _ _ _ _ _ _ (by rw [hpc]; rfl) ?_ (.idle rfl) nofun
      rw [hpc]
      show s.shm.noverflow + 1 + s.failed = s.shm.noverflow + 0 + (s.failed + 1)
      omega
  | waitMutex =>
    simp only [hpc, Option.ite_none_right_eq_some] at hstep
    obtain ⟨-, hstep⟩ := hstep
    cases hstep
    exact h.clientSem c _ _ _ _ _ _ (by rw [hpc]; rfl) (by rw [hpc]; rfl) (.idle rfl) nofun
  | reserve =>
    simp only [hpc, Option.some.injEq] at hstep
    cases hstep
    exact h.reserve hpc _ rfl _ rfl rfl rfl
  | postMutex r =>
    simp only [hpc, Option.some.injEq] at hstep
    cases hstep
    refine h.clientSem c _ _ _ _ _ _ (by rw [hpc]; rfl) (by rw [hpc]; rfl) ?_
      (by rw [hpc]; exact fun _ hq => hq)
    have hturn : (s.client c).pc.turn = some r := by rw [hpc]; rfl
    refine ⟨?_, ?_, ?_, ?_⟩ <;> intro q hq <;> cases hq
    · exact hc.unposted r hturn
    · exact hc.offset r hturn
    · exact hc.mine r hturn
    · rw [← hc.copied r hturn, hpc]
      exact ⟨fun hcopy => (nomatch hcopy), fun hpost => (nomatch hpost)⟩
  | copy r =>
    simp only [hpc, Option.some.injEq] at hstep
    cases hstep
    exact h.copy hpc _ rfl rfl rfl
  | postStored r =>
    simp only [hpc, Option.some.injEq] at hstep
    cases hstep
    exact h.post hpc (hok r hpc) _ rfl
  | waitOverflow =>
    simp only [hpc, Option.ite_none_right_eq_some] at hstep
    obtain ⟨-, hstep⟩ := hstep
    cases hstep
    exact h.clientSem c _ _ _ _ _ _ (by rw [hpc]; rfl) (by rw [hpc]; rfl) (.idle rfl) nofun
  | addOverflow =>
    simp only [hpc, Option.some.injEq] at hstep
    cases hstep
    exact h.clientSem c _ _ _ _ _ _ (by rw [hpc]; rfl) (by rw [hpc]; rfl) (.idle rfl) nofun
  | postOverflow =>
    simp only [hpc, Option.some.injEq] at hstep
    cases hstep
    exact h.clientSem c _ _ _ _ _ _ (by rw [hpc]; rfl) (by rw [hpc]; rfl) (.idle rfl) nofun

omit [DecidableEq C] in
theorem Inv.serverStep (h : Inv args s) (hstep : serverStep s = some s') : Inv args s' := by
  unfold Pxshm.serverStep at hstep
  cases hpc : s.server.pc with
  | waitStored =>
    simp only [hpc, Option.ite_none_right_eq_some] at hstep
    obtain ⟨hpos, hstep⟩ := hstep
    cases hstep
    exact h.serverSem _ _ _ _ _ _ (by rw [hpc]; rfl) (by rw [hpc]; exact Nat.sub_add_cancel hpos)
      rfl
  | waitMutex =>
    simp only [hpc, Option.ite_none_right_eq_some] at hstep
    obtain ⟨-, hstep⟩ := hstep
    cases hstep
    exact h.serverSem _ _ _ _ _ _ (by rw [hpc]; rfl) (by rw [hpc]; rfl) rfl
  | print =>
    simp only [hpc, Option.some.injEq] at hstep
    cases hstep
    exact h.print hpc _ rfl rfl
  | postMutex =>
    simp only [hpc, Option.some.injEq] at hstep
    cases hstep
    exact h.serverSem _ _ _ _ _ _ (by rw [hpc]; rfl) (by rw [hpc]; rfl) rfl
  | postEmpty =>
    simp only [hpc, Option.some.injEq] at hstep
    cases hstep
    exact h.serverSem _ _ _ _ _ _ (by rw [hpc]; rfl) (by rw [hpc]; rfl) rfl
  | waitOverflow =>
    simp only [hpc, Option.ite_none_right_eq_some] at hstep
    obtain ⟨-, hstep⟩ := hstep
    cases hstep
    exact h.serverSem _ _ _ _ _ _ (by rw [hpc]; rfl) (by rw [hpc]; rfl) rfl
  | readOverflow =>
    simp only [hpc, Option.some.injEq] at hstep
    cases hstep
    exact h.serverSem _ _ _ _ _ _ (by rw [hpc]; rfl) (by rw [hpc]; rfl) rfl
  | postOverflow =>
    simp only [hpc] at hstep
    split at hstep
    · cases hstep
      exact h.serverSem _ _ _ _ _ _ (by rw [hpc]; rfl) (by rw [hpc]; rfl) rfl
    · cases hstep
      exact h.serverSem _ _ _ _ _ _ (by rw [hpc]; rfl) (by rw [hpc]; rfl) rfl

theorem inv_init (args : Args C) : Inv args (system args).init where
  room := by
    have hzero : (system args).init.holdsEmpty = 0 := total_eq_zero fun _ => rfl
    rw [hzero]
    rfl
  stored := rfl
  counted := by
    have hzero : (system args).init.counting = 0 := total_eq_zero fun _ => rfl
    rw [hzero]
    rfl
  nput := rfl
  index := rfl
  client _ := .idle rfl
  unique _ _ _ hc := nomatch hc
  copied_lt r hr := absurd hr (Finset.notMem_empty r)
  posted_copied := Finset.Subset.refl _
  orderly r hr := absurd hr (Finset.notMem_empty r)
  printed := List.nil_prefix
  printed_copied k hk := absurd hk (Nat.not_lt_zero k)
  kept k hk := absurd hk (Finset.notMem_empty k)

theorem reachable_inv (h : (system args).Reachable PostsInTurn s) : Inv args s := by
  refine h.invariant (inv_init args) fun s a s' hs ha hstep => ?_
  cases a with
  | client c => exact hs.clientStep ha hstep
  | server => exact hs.serverStep hstep

/-- In the runs whose posts are in turn the ring keeps all its promises. -/
theorem ring_correct (args : Args C) (s : State C) (h : (system args).Reachable PostsInTurn s) :
    Correct s := by
  have hinv := reachable_inv h
  have hcounted := hinv.counted
  refine ⟨hinv.printed, hinv.printed_copied, fun k hk hle m hm => ?_, by omega, fun hnone => ?_⟩
  · have hkept := hinv.kept k hk hle
    rw [hm] at hkept
    exact (Option.some.inj hkept).symm
  · have hzero : s.counting = 0 := total_eq_zero hnone
    omega

instance (s : State C) (a : Label C) : Decidable (PostsInTurn s a) := by
  cases a with
  | server => exact inferInstanceAs (Decidable True)
  | client c =>
    exact match hpc : (s.client c).pc with
      | .postStored r =>
        decidable_of_iff (∀ q < r, q ∈ s.copied) (by simp [PostsInTurn, hpc])
      | .trywait | .waitMutex | .reserve | .postMutex _ | .copy _ | .waitOverflow | .addOverflow
      | .postOverflow => isTrue (by simp [PostsInTurn, hpc])

/-- Two clients that send one message each. -/
def two : Args (Fin 2) := ⟨fun c => 100 + c, fun _ => 1⟩

/-- One of them sends its message and the server prints it. -/
theorem ring_correct_two :
    ∃ s : State (Fin 2), (system two).Reachable PostsInTurn s ∧ (s.printed.length == 1) = true ∧
      Correct s := by
  obtain ⟨s, hs, hprinted⟩ := reachable_of_execIf (system two)
    (fun s a => decide (PostsInTurn s a)) (fun _ _ h => of_decide_eq_true h)
    (List.replicate 6 (.client 0) ++ List.replicate 3 .server)
    (fun s => s.printed.length == 1) (by decide +kernel)
  exact ⟨s, hs, hprinted, ring_correct two s hs⟩

/-- The first client reserves; the second reserves, copies and posts; the server
prints the first slot. -/
theorem ring_prints_uncopied :
    ¬ ∀ s : State (Fin 2), (system two).Reachable anyStep s → Correct s := by
  intro h
  obtain ⟨s, hs, hbad⟩ := reachable_of_exec (system two)
    (List.replicate 4 (.client 0) ++ List.replicate 6 (.client 1) ++ List.replicate 3 .server)
    (fun s => s.printed.length == 1 && decide (0 ∉ s.copied)) (by decide +kernel)
  rw [Bool.and_eq_true, beq_iff_eq, decide_eq_true_eq] at hbad
  obtain ⟨hlen, hnot⟩ := hbad
  exact hnot ((h s hs).copiedFirst 0 (by rw [hlen]; exact Nat.one_pos))

end DdsAuto.Pxshm
