import DdsAuto.Lib.Lts
import Mathlib.Data.Int.Notation
import Mathlib.Data.List.Basic
import Mathlib.Data.List.Induction
import Mathlib.Logic.Equiv.Basic

/-!
# `danger_swap` and `safe_swap`

Any number of threads exchange the objects of any number of `big_object_mgr`s, each
thread by the calls of a list of its own. `danger_swap` takes the two mutexes one
after the other and waits for the second with the first in hand; `safe_swap` and
`safe_swap_scope` leave the order to `std::lock`, which never waits with one in hand.
A step is one operation on a mutex, or one of the three moves of `swap`.
-/

namespace DdsAuto.Concurrent.Swap

open Function

inductive Kind
  | danger
  | safe
  | scope
  deriving DecidableEq, Repr

/-- A call of one of the three functions. -/
structure Call (O : Type) where
  kind : Kind
  objm1 : O
  objm2 : O
  deriving DecidableEq, Repr

/-- `lock1` and `lock2` are the two guards of `danger_swap`; `lock` is `std::lock` with
neither mutex, `tryLock` with the first of the two, or the second. `unlock` has some
mutexes still to release. -/
inductive Pc (O : Type)
  | idle
  | lock1 (c : Call O)
  | lock2 (c : Call O)
  | lock (c : Call O)
  | tryLock (c : Call O) (first : Bool)
  | moveToTemp (c : Call O)
  | moveTo1 (c : Call O) (temp : Int)
  | moveTo2 (c : Call O) (temp : Int)
  | unlock (held : List O)
  deriving DecidableEq, Repr

structure Thread (O : Type) where
  pc : Pc O
  calls : List (Call O)
  deriving DecidableEq, Repr

/-- `owner` are the `_mtx` and `obj` the `_data` of the managers; `swapped` lists the
calls of `swap` that have returned, the last one at the end. -/
structure State (T O : Type) where
  owner : O → Option T
  obj : O → Int
  thread : T → Thread O
  swapped : List (T × Call O)

variable {T O : Type} [DecidableEq T] [DecidableEq O]

def State.goto (s : State T O) (t : T) (pc : Pc O) : State T O :=
  { s with thread := update s.thread t { s.thread t with pc := pc } }

def State.setOwner (s : State T O) (m : O) (o : Option T) : State T O :=
  { s with owner := update s.owner m o }

/-- The guards go in the reverse order of their making, those of `scoped_lock` in the
order of its arguments. -/
def Call.guards (c : Call O) : List O :=
  match c.kind with
  | .danger | .safe => [c.objm2, c.objm1]
  | .scope => [c.objm1, c.objm2]

/-- The mutex that `std::lock` has taken, and the other one. -/
def Call.mutex (c : Call O) (first : Bool) : O := if first then c.objm1 else c.objm2

/-- A step of a thread; `first` is what `std::lock` begins with. -/
def step (s : State T O) (t : T) (first : Bool) : Option (State T O) :=
  match (s.thread t).pc with
  | .idle =>
    match (s.thread t).calls with
    | [] => none
    | c :: calls =>
      let pc : Pc O :=
        if c.objm1 = c.objm2 then .idle
        else match c.kind with
          | .danger => .lock1 c
          | .safe | .scope => .lock c
      some { s with thread := update s.thread t ⟨pc, calls⟩ }
  | .lock1 c =>
    if s.owner c.objm1 = none then some ((s.setOwner c.objm1 (some t)).goto t (.lock2 c)) else none
  | .lock2 c =>
    if s.owner c.objm2 = none then some ((s.setOwner c.objm2 (some t)).goto t (.moveToTemp c))
    else none
  | .lock c =>
    let m := c.mutex first
    if s.owner m = none then some ((s.setOwner m (some t)).goto t (.tryLock c first)) else none
  | .tryLock c first =>
    let m := c.mutex (!first)
    if s.owner m = none then some ((s.setOwner m (some t)).goto t (.moveToTemp c))
    else some ((s.setOwner (c.mutex first) none).goto t (.lock c))
  | .moveToTemp c => some (s.goto t (.moveTo1 c (s.obj c.objm1)))
  | .moveTo1 c temp =>
    some { s.goto t (.moveTo2 c temp) with obj := update s.obj c.objm1 (s.obj c.objm2) }
  | .moveTo2 c temp =>
    some { s.goto t (.unlock c.guards) with
      obj := update s.obj c.objm2 temp
      swapped := s.swapped ++ [(t, c)] }
  | .unlock held =>
    match held with
    | [] => some (s.goto t .idle)
    | m :: held => some ((s.setOwner m none).goto t (.unlock held))

structure Label (T : Type) where
  t : T
  first : Bool

/-- Nobody holds a mutex, and every thread has its calls before it. -/
def system (obj : O → Int) (calls : T → List (Call O)) : Lts (State T O) (Label T) where
  init := ⟨fun _ => none, obj, fun t => ⟨.idle, calls t⟩, []⟩
  step s a := step s a.t a.first

-- ---------------------------------------------------------------------------
-- Who holds what
-- ---------------------------------------------------------------------------

/-- The mutexes a thread holds. -/
def Pc.held : Pc O → List O
  | .idle | .lock1 _ | .lock _ => []
  | .lock2 c => [c.objm1]
  | .tryLock c first => [c.mutex first]
  | .moveToTemp c | .moveTo1 c _ | .moveTo2 c _ => [c.objm1, c.objm2]
  | .unlock held => held

/-- The call whose swap is still to come. -/
def Pc.pending : Pc O → List (Call O)
  | .lock1 c | .lock2 c | .lock c | .tryLock c _ | .moveToTemp c | .moveTo1 c _ | .moveTo2 c _ => [c]
  | .idle | .unlock _ => []

def Call.Proper (c : Call O) : Prop := c.objm1 ≠ c.objm2

instance (c : Call O) : Decidable c.Proper := inferInstanceAs (Decidable (_ ≠ _))

structure Held (s : State T O) : Prop where
  owner : ∀ t m, s.owner m = some t ↔ m ∈ (s.thread t).pc.held
  nodup : ∀ t, (s.thread t).pc.held.Nodup
  proper : ∀ t, ∀ c ∈ (s.thread t).pc.pending, c.Proper

variable {s s' : State T O} {t u : T} {c : Call O} {m o : O} {first : Bool} {pc : Pc O}
variable {obj : O → Int} {calls : T → List (Call O)}

-- ---------------------------------------------------------------------------
-- The three things a step can do to the mutexes
-- ---------------------------------------------------------------------------

/-- Thread `t` has come to `pc`, and the other threads are where they were. -/
structure Moved (s s' : State T O) (t : T) (pc : Pc O) : Prop where
  self : (s'.thread t).pc = pc
  other : ∀ u, u ≠ t → s'.thread u = s.thread u

omit [DecidableEq O] in
theorem moved_goto (s : State T O) (t : T) (pc : Pc O) : Moved s (s.goto t pc) t pc :=
  ⟨by simp [State.goto], fun u hu => by simp [State.goto, hu]⟩

theorem moved_setOwner (s : State T O) (m : O) (x : Option T) (t : T) (pc : Pc O) :
    Moved s ((s.setOwner m x).goto t pc) t pc :=
  ⟨by simp [State.goto], fun u hu => by simp [State.goto, State.setOwner, hu]⟩

section

variable (h : Held s) (hmoved : Moved s s' t pc) (hproper : ∀ c ∈ pc.pending, c.Proper)

include h hmoved hproper

omit [DecidableEq T] [DecidableEq O] in
theorem Held.of_moved (howner : ∀ m, s'.owner m = some t ↔ m ∈ pc.held)
    (hother : ∀ u m, u ≠ t → (s'.owner m = some u ↔ s.owner m = some u)) (hnodup : pc.held.Nodup) :
    Held s' where
  owner u m := by
    by_cases hu : u = t
    · subst hu
      rw [hmoved.self]
      exact howner m
    · rw [hother u m hu, hmoved.other u hu]
      exact h.owner u m
  nodup u := by
    by_cases hu : u = t
    · subst hu
      rw [hmoved.self]
      exact hnodup
    · rw [hmoved.other u hu]
      exact h.nodup u
  proper u := by
    by_cases hu : u = t
    · subst hu
      rw [hmoved.self]
      exact hproper
    · rw [hmoved.other u hu]
      exact h.proper u

omit [DecidableEq T] [DecidableEq O] in
theorem Held.keep (howner : s'.owner = s.owner) (hheld : pc.held = (s.thread t).pc.held) :
    Held s' := by
  refine h.of_moved hmoved hproper (fun m => ?_) (fun u m _ => by rw [howner])
    (hheld ▸ h.nodup t)
  rw [howner, hheld]
  exact h.owner t m

omit [DecidableEq T] in
theorem Held.take (hfree : s.owner m = none) (howner : s'.owner = update s.owner m (some t))
    (hheld : pc.held.Perm (m :: (s.thread t).pc.held)) : Held s' := by
  have hnew : m ∉ (s.thread t).pc.held := fun hin => by
    rw [← h.owner, hfree] at hin
    cases hin
  refine h.of_moved hmoved hproper (fun n => ?_) (fun u n hu => ?_)
    (hheld.nodup_iff.mpr (List.nodup_cons.mpr ⟨hnew, h.nodup t⟩))
  · rw [howner, hheld.mem_iff, List.mem_cons, ← h.owner]
    by_cases hn : n = m
    · simp [hn]
    · simp [hn]
  · rw [howner]
    by_cases hn : n = m
    · subst hn
      rw [update_self, hfree]
      exact ⟨fun heq => absurd (Option.some.inj heq).symm hu, nofun⟩
    · rw [update_of_ne hn]

omit [DecidableEq T] in
theorem Held.drop (howner : s'.owner = update s.owner m none)
    (hheld : (s.thread t).pc.held.Perm (m :: pc.held)) : Held s' := by
  have hnodup := hheld.nodup_iff.mp (h.nodup t)
  have hm : s.owner m = some t := (h.owner t m).mpr (hheld.mem_iff.mpr List.mem_cons_self)
  refine h.of_moved hmoved hproper (fun n => ?_) (fun u n hu => ?_) (List.nodup_cons.mp hnodup).2
  · rw [howner]
    by_cases hn : n = m
    · subst hn
      rw [update_self]
      exact ⟨nofun, fun hin => absurd hin (List.nodup_cons.mp hnodup).1⟩
    · rw [update_of_ne hn, h.owner, hheld.mem_iff, List.mem_cons]
      simp [hn]
  · rw [howner]
    by_cases hn : n = m
    · subst hn
      rw [update_self, hm]
      exact ⟨nofun, fun heq => absurd (Option.some.inj heq).symm hu⟩
    · rw [update_of_ne hn]

end

theorem held_step (h : Held s) (hstep : step s t first = some s') : Held s' := by
  have hproper := h.proper t
  cases hpc : (s.thread t).pc <;> simp only [step, hpc] at hstep <;> rw [hpc] at hproper
  case idle =>
    split at hstep
    · cases hstep
    · rename_i c calls hcalls
      simp only [Option.some.injEq] at hstep
      subst hstep
      have hidle : (s.thread t).pc.held = [] := by rw [hpc]; rfl
      refine h.keep ⟨rfl, fun u hu => update_of_ne hu ..⟩ ?_ rfl ?_ <;>
        simp only [update_self] <;> split
      · nofun
      · rename_i hne
        split <;> simp [Pc.pending, Call.Proper, hne]
      · exact hidle.symm
      · rw [hidle]
        split <;> rfl
  case lock1 c =>
    simp only [Option.ite_none_right_eq_some, Option.some.injEq] at hstep
    obtain ⟨hfree, rfl⟩ := hstep
    exact h.take (moved_setOwner ..) hproper hfree rfl (by rw [hpc]; exact .refl _)
  case lock2 c =>
    simp only [Option.ite_none_right_eq_some, Option.some.injEq] at hstep
    obtain ⟨hfree, rfl⟩ := hstep
    exact h.take (moved_setOwner ..) hproper hfree rfl (by rw [hpc]; exact .swap ..)
  case lock c =>
    simp only [Option.ite_none_right_eq_some, Option.some.injEq] at hstep
    obtain ⟨hfree, rfl⟩ := hstep
    exact h.take (moved_setOwner ..) hproper hfree rfl (by rw [hpc]; exact .refl _)
  case tryLock c b =>
    split at hstep <;> cases hstep
    · rename_i hfree
      refine h.take (moved_setOwner ..) hproper hfree rfl ?_
      rw [hpc]
      cases b
      · exact .refl _
      · exact .swap ..
    · exact h.drop (moved_setOwner ..) hproper rfl (by rw [hpc]; exact .refl _)
  case moveToTemp c | moveTo1 c temp =>
    cases hstep
    exact h.keep ⟨(moved_goto s t _).self, (moved_goto s t _).other⟩ hproper rfl (by rw [hpc]; rfl)
  case moveTo2 c temp =>
    cases hstep
    have hnodup := h.nodup t
    rw [hpc] at hnodup
    have hperm : c.guards.Perm [c.objm1, c.objm2] := by
      unfold Call.guards
      split
      · exact .swap ..
      · exact .swap ..
      · exact .refl _
    have hmoved := moved_goto s t (.unlock c.guards)
    refine h.of_moved ⟨hmoved.self, hmoved.other⟩ (fun _ hin => absurd hin List.not_mem_nil)
      (fun m => ?_) (fun u m _ => Iff.rfl) (hperm.nodup_iff.mpr hnodup)
    have hown := h.owner t m
    rw [hpc] at hown
    exact hown.trans hperm.mem_iff.symm
  case unlock held =>
    split at hstep <;> cases hstep
    · exact h.keep (moved_goto ..) hproper rfl (by rw [hpc]; rfl)
    · exact h.drop (moved_setOwner ..) hproper rfl (by rw [hpc]; exact .refl _)

omit [DecidableEq T] [DecidableEq O] in
/-- Two threads never hold the same mutex. -/
theorem Held.unique (h : Held s) (ht : m ∈ (s.thread t).pc.held) (hu : m ∈ (s.thread u).pc.held) :
    t = u := by
  rw [← h.owner] at ht hu
  rw [ht] at hu
  exact Option.some.inj hu

-- ---------------------------------------------------------------------------
-- What the objects hold
-- ---------------------------------------------------------------------------

/-- `swap(objm1._obj, objm2._obj)` in one step. -/
def exchange (obj : O → Int) (c : Call O) : O → Int := fun o => obj (Equiv.swap c.objm1 c.objm2 o)

/-- The objects after the swaps, one after the other. -/
def replay (obj : O → Int) (swapped : List (T × Call O)) : O → Int :=
  (swapped.map Prod.snd).foldl exchange obj

/-- The object before the swap its owner has begun. -/
def Pc.before (obj : O → Int) (o : O) : Pc O → Int
  | .moveTo2 c temp => if o = c.objm1 then temp else obj o
  | _ => obj o

def State.settled (s : State T O) (o : O) : Int :=
  match s.owner o with
  | none => s.obj o
  | some t => (s.thread t).pc.before s.obj o

/-- What `temp` and the first object are during the moves. -/
def MovesOk (obj : O → Int) : Pc O → Prop
  | .moveTo1 c temp => temp = obj c.objm1
  | .moveTo2 c _ => obj c.objm1 = obj c.objm2
  | _ => True

def Moves (s : State T O) : Prop := ∀ t, MovesOk s.obj (s.thread t).pc

omit [DecidableEq T] [DecidableEq O] in
/-- Objects that a thread does not hold may change. -/
theorem MovesOk.congr {obj obj' : O → Int} (h : MovesOk obj pc)
    (hsame : ∀ o ∈ pc.held, obj' o = obj o) : MovesOk obj' pc := by
  cases pc <;> try trivial
  case moveTo1 c temp =>
    simp only [MovesOk] at h ⊢
    rw [hsame c.objm1 (by simp [Pc.held]), h]
  case moveTo2 c temp =>
    simp only [MovesOk] at h ⊢
    rw [hsame c.objm1 (by simp [Pc.held]), hsame c.objm2 (by simp [Pc.held]), h]

omit [DecidableEq T] in
theorem before_congr {obj obj' : O → Int} (hsame : obj' o = obj o) (pc : Pc O) :
    pc.before obj' o = pc.before obj o := by
  cases pc <;> simp [Pc.before, hsame]

/-- A step that moves no object, between points where the swap is not half done. -/
theorem settled_keep (hmoved : Moved s s' t pc) (hobj : s'.obj = s.obj)
    (howner : ∀ u, u ≠ t → ∀ o, s'.owner o = some u ↔ s.owner o = some u)
    (hold : ∀ o, (s.thread t).pc.before s.obj o = s.obj o) (hnew : ∀ o, pc.before s.obj o = s.obj o)
    (o : O) : s'.settled o = s.settled o := by
  -- what an owner other than `t` has done to the object stays
  have hother (u : T) (hu : u ≠ t) : (s'.thread u).pc.before s'.obj o =
      (s.thread u).pc.before s.obj o := by rw [hmoved.other u hu, hobj]
  have hself : (s'.thread t).pc.before s'.obj o = s.obj o := by rw [hmoved.self, hobj, hnew]
  unfold State.settled
  cases ho : s.owner o with
  | none =>
    cases ho' : s'.owner o with
    | none => exact congrFun hobj o
    | some u =>
      by_cases hu : u = t
      · subst hu
        exact hself
      · rw [howner u hu, ho] at ho'
        cases ho'
  | some u =>
    by_cases hu : u = t
    · subst hu
      simp only [hold]
      cases ho' : s'.owner o with
      | none => exact congrFun hobj o
      | some v =>
        by_cases hv : v = u
        · subst hv
          exact hself
        · rw [howner v hv, ho] at ho'
          exact absurd (Option.some.inj ho').symm hv
    · rw [(howner u hu o).mpr ho]
      exact hother u hu

/-- The objects, and the calls of each thread: those that have swapped, the one under
way, and those to come. -/
structure InOrder (obj : O → Int) (calls : T → List (Call O)) (s : State T O) : Prop where
  held : Held s
  moves : Moves s
  settled : ∀ o, s.settled o = replay obj s.swapped o
  order : ∀ t, (s.swapped.filter (·.1 = t)).map Prod.snd ++ (s.thread t).pc.pending ++
    (s.thread t).calls.filter (fun c => c.Proper) = (calls t).filter fun c => c.Proper

theorem InOrder.keep (h : InOrder obj calls s) (hheld : Held s') (hmoved : Moved s s' t pc)
    (hobj : s'.obj = s.obj) (hswapped : s'.swapped = s.swapped)
    (hold : ∀ o, (s.thread t).pc.before s.obj o = s.obj o) (hnew : ∀ o, pc.before s.obj o = s.obj o)
    (hmoves : MovesOk s.obj pc)
    (horder : pc.pending ++ (s'.thread t).calls.filter (fun c => c.Proper) =
      (s.thread t).pc.pending ++ (s.thread t).calls.filter fun c => c.Proper) :
    InOrder obj calls s' where
  held := hheld
  moves u := by
    by_cases hu : u = t
    · subst hu
      rw [hmoved.self, hobj]
      exact hmoves
    · rw [hmoved.other u hu, hobj]
      exact h.moves u
  settled o := by
    have howner (u : T) (hu : u ≠ t) (o : O) : s'.owner o = some u ↔ s.owner o = some u := by
      rw [hheld.owner, h.held.owner, hmoved.other u hu]
    rw [settled_keep hmoved hobj howner hold hnew, hswapped]
    exact h.settled o
  order u := by
    by_cases hu : u = t
    · subst hu
      rw [hswapped, hmoved.self, List.append_assoc, horder, ← List.append_assoc]
      exact h.order u
    · rw [hswapped, hmoved.other u hu]
      exact h.order u

theorem inOrder_moveTo1 (h : InOrder obj calls s) {temp : Int}
    (hpc : (s.thread t).pc = .moveTo1 c temp) (hstep : step s t first = some s') :
    InOrder obj calls s' := by
  have hheld := held_step h.held hstep
  simp only [step, hpc, Option.some.injEq] at hstep
  have hmem : c.objm1 ∈ (s.thread t).pc.held := by simp [hpc, Pc.held]
  have hproper : c.Proper := h.held.proper t c (by simp [hpc, Pc.pending])
  have htemp : temp = s.obj c.objm1 := by
    have hmoves := h.moves t
    rwa [hpc] at hmoves
  have hthread (u : T) (hu : u ≠ t) : s'.thread u = s.thread u := by
    rw [← hstep]
    exact update_of_ne hu ..
  have hself : (s'.thread t).pc = .moveTo2 c temp := by simp [← hstep, State.goto]
  have hobj : s'.obj = update s.obj c.objm1 (s.obj c.objm2) := by rw [← hstep]
  refine ⟨hheld, fun u => ?_, fun o => ?_, fun u => ?_⟩
  · by_cases hu : u = t
    · subst hu
      rw [hself, hobj, MovesOk, update_self, update_of_ne (Ne.symm hproper)]
    · rw [hthread u hu, hobj]
      refine (h.moves u).congr fun o ho => update_of_ne (fun heq => hu ?_) ..
      exact h.held.unique (heq ▸ ho) hmem
  · have howner : s'.owner = s.owner := by rw [← hstep]; rfl
    have hswapped : s'.swapped = s.swapped := by rw [← hstep]; rfl
    rw [hswapped, ← h.settled o]
    unfold State.settled
    rw [howner]
    cases ho : s.owner o with
    | none =>
      have hne : o ≠ c.objm1 := fun heq => by
        rw [← h.held.owner, ← heq, ho] at hmem
        cases hmem
      simp only [hobj, update_of_ne hne]
    | some u =>
      by_cases hu : u = t
      · subst hu
        simp only [hself, hpc, Pc.before, hobj]
        by_cases heq : o = c.objm1
        · rw [if_pos heq, heq, htemp]
        · rw [if_neg heq, update_of_ne heq]
      · have hne : o ≠ c.objm1 := fun heq => hu (h.held.unique ((h.held.owner u o).mp ho) (heq ▸ hmem))
        simp only [hthread u hu]
        exact before_congr (by rw [hobj, update_of_ne hne]) _
  · have horder := h.order u
    rw [← hstep]
    by_cases hu : u = t
    · subst hu
      rw [hpc] at horder
      simpa [State.goto, Pc.pending] using horder
    · simpa [State.goto, hu] using horder

theorem inOrder_moveTo2 (h : InOrder obj calls s) {temp : Int}
    (hpc : (s.thread t).pc = .moveTo2 c temp) (hstep : step s t first = some s') :
    InOrder obj calls s' := by
  have hheld := held_step h.held hstep
  simp only [step, hpc, Option.some.injEq] at hstep
  have hheldt (o : O) : s.owner o = some t ↔ o = c.objm1 ∨ o = c.objm2 := by
    rw [h.held.owner, hpc]
    simp [Pc.held]
  have hproper : c.Proper := h.held.proper t c (by simp [hpc, Pc.pending])
  have hmoves : s.obj c.objm1 = s.obj c.objm2 := by
    have hmoves := h.moves t
    rwa [hpc] at hmoves
  have hthread (u : T) (hu : u ≠ t) : s'.thread u = s.thread u := by
    rw [← hstep]
    exact update_of_ne hu ..
  have hself : (s'.thread t).pc = .unlock c.guards := by simp [← hstep, State.goto]
  have hobj : s'.obj = update s.obj c.objm2 temp := by rw [← hstep]
  have howner : s'.owner = s.owner := by rw [← hstep]; rfl
  refine ⟨hheld, fun u => ?_, fun o => ?_, fun u => ?_⟩
  · by_cases hu : u = t
    · subst hu
      rw [hself]
      trivial
    · rw [hthread u hu, hobj]
      refine (h.moves u).congr fun o ho => update_of_ne (fun heq => hu ?_) ..
      exact h.held.unique (heq ▸ ho) ((h.held.owner t _).mp ((hheldt _).mpr (.inr rfl)))
  · have hreplay : replay obj s'.swapped o = s.settled (Equiv.swap c.objm1 c.objm2 o) := by
      rw [← hstep, h.settled, replay, List.map_append, List.foldl_append]
      rfl
    have hunlock : s.owner o = some t → s'.settled o = s'.obj o := fun ho => by
      simp only [State.settled, howner, ho, hself, Pc.before]
    rw [hreplay]
    by_cases h1 : o = c.objm1
    · subst h1
      have hown := (hheldt c.objm2).mpr (.inr rfl)
      rw [hunlock ((hheldt _).mpr (.inl rfl)), hobj, update_of_ne hproper, Equiv.swap_apply_left]
      simp only [State.settled, hown, hpc, Pc.before, if_neg (Ne.symm hproper), hmoves]
    · by_cases h2 : o = c.objm2
      · subst h2
        have hown := (hheldt c.objm1).mpr (.inl rfl)
        rw [hunlock ((hheldt _).mpr (.inr rfl)), hobj, update_self, Equiv.swap_apply_right]
        simp only [State.settled, hown, hpc, Pc.before, if_pos]
      · rw [Equiv.swap_apply_of_ne_of_ne h1 h2]
        have hsame : s'.obj o = s.obj o := by rw [hobj, update_of_ne h2]
        unfold State.settled
        rw [howner]
        cases ho : s.owner o with
        | none => exact hsame
        | some u =>
          have hu : u ≠ t := by
            rintro rfl
            exact ((hheldt o).mp ho).elim h1 h2
          simp only [hthread u hu]
          exact before_congr hsame _
  · have horder := h.order u
    rw [← hstep]
    by_cases hu : u = t
    · subst hu
      rw [hpc] at horder
      simpa [State.goto, Pc.pending] using horder
    · simpa [State.goto, hu, Ne.symm hu] using horder

theorem inOrder_step (h : InOrder obj calls s) (hstep : step s t first = some s') :
    InOrder obj calls s' := by
  have hheld := held_step h.held hstep
  have hstep' := hstep
  cases hpc : (s.thread t).pc <;> simp only [step, hpc] at hstep'
  case moveTo1 c temp => exact inOrder_moveTo1 h hpc hstep
  case moveTo2 c temp => exact inOrder_moveTo2 h hpc hstep
  case idle =>
    split at hstep'
    · cases hstep'
    · rename_i c rest hcalls
      cases hstep'
      refine h.keep hheld ⟨rfl, fun u hu => update_of_ne hu ..⟩ rfl rfl (by simp [hpc, Pc.before])
        ?_ ?_ ?_ <;> simp only [update_self]
      · intro o
        split
        · rfl
        · split <;> rfl
      · split
        · trivial
        · split <;> trivial
      · rw [hcalls, hpc]
        split
        · rename_i heq
          simp [Pc.pending, Call.Proper, heq]
        · rename_i hne
          split <;> simp [Pc.pending, Call.Proper, hne]
  case lock1 c | lock2 c | lock c =>
    simp only [Option.ite_none_right_eq_some, Option.some.injEq] at hstep'
    obtain ⟨-, rfl⟩ := hstep'
    exact h.keep hheld (moved_setOwner ..) rfl rfl (by simp [hpc, Pc.before]) (by simp [Pc.before])
      trivial (by simp [State.goto, State.setOwner, hpc, Pc.pending])
  case tryLock c b =>
    split at hstep' <;> cases hstep' <;>
      exact h.keep hheld (moved_setOwner ..) rfl rfl (by simp [hpc, Pc.before])
        (by simp [Pc.before]) trivial (by simp [State.goto, State.setOwner, hpc, Pc.pending])
  case moveToTemp c =>
    cases hstep'
    exact h.keep hheld (moved_goto ..) rfl rfl (by simp [hpc, Pc.before]) (by simp [Pc.before])
      rfl (by simp [State.goto, hpc, Pc.pending])
  case unlock held =>
    split at hstep' <;> cases hstep'
    · exact h.keep hheld (moved_goto ..) rfl rfl (by simp [hpc, Pc.before]) (by simp [Pc.before])
        trivial (by simp [State.goto, hpc, Pc.pending])
    · exact h.keep hheld (moved_setOwner ..) rfl rfl (by simp [hpc, Pc.before])
        (by simp [Pc.before]) trivial (by simp [State.goto, State.setOwner, hpc, Pc.pending])

theorem inOrder_of_reachable (h : (system obj calls).Reachable Lts.anyStep s) :
    InOrder obj calls s :=
  h.invariant (P := InOrder obj calls)
    ⟨⟨fun _ _ => ⟨nofun, fun hin => absurd hin List.not_mem_nil⟩, fun _ => List.nodup_nil,
        fun _ _ hin => absurd hin List.not_mem_nil⟩,
      fun _ => trivial, fun _ => rfl, fun _ => rfl⟩
    fun _ _ _ hs _ hstep => inOrder_step hs hstep

/-- However the threads interleave, and whichever functions they call: each thread's
swaps take effect one after the other in the order of its calls, a manager that nobody
has locked holds what the swaps so far leave it, and that is one of the first objects,
none of them twice. Two threads are never at the moves of one object. -/
theorem swaps_take_effect_in_order (obj : O → Int) (calls : T → List (Call O))
    (h : (system obj calls).Reachable Lts.anyStep s) :
    (∀ o, s.owner o = none → s.obj o = replay obj s.swapped o) ∧
    (∃ σ : Equiv.Perm O, ∀ o, replay obj s.swapped o = obj (σ o)) ∧
    (∀ t, ((s.swapped.filter (·.1 = t)).map Prod.snd) <+: (calls t).filter fun c => c.Proper) ∧
    (∀ t, s.thread t = ⟨.idle, []⟩ →
      (s.swapped.filter (·.1 = t)).map Prod.snd = (calls t).filter fun c => c.Proper) ∧
    ∀ t u m, m ∈ (s.thread t).pc.held → m ∈ (s.thread u).pc.held → t = u := by
  have hs := inOrder_of_reachable h
  refine ⟨fun o ho => ?_, ?_, fun t => ?_, fun t hidle => ?_, fun t u m => hs.held.unique⟩
  · rw [← hs.settled o, State.settled, ho]
  · generalize s.swapped = swapped
    induction swapped using List.reverseRecOn with
    | nil => exact ⟨Equiv.refl O, fun _ => rfl⟩
    | append_singleton swapped last ih =>
      obtain ⟨σ, hσ⟩ := ih
      refine ⟨(Equiv.swap last.2.objm1 last.2.objm2).trans σ, fun o => ?_⟩
      rw [replay, List.map_append, List.foldl_append]
      exact hσ _
  · rw [← hs.order t, List.append_assoc]
    exact List.prefix_append _ _
  · have horder := hs.order t
    rw [hidle] at horder
    simpa [Pc.pending] using horder

/-- `safe_swap` both ways: one thread steps back, and both swap. -/
theorem swaps_take_effect_in_order_two :
    ∃ s : State Bool Bool, (system (fun o => if o then 5 else 100)
      fun t => [⟨.safe, t, !t⟩]).Reachable Lts.anyStep s ∧
      (∀ t, s.thread t = ⟨.idle, []⟩) ∧ s.swapped.map Prod.fst = [false, true] ∧
      s.obj true = replay (fun o => if o then 5 else 100) s.swapped true := by
  obtain ⟨s, hs, hcheck⟩ := Lts.reachable_of_exec
    (system (fun o : Bool => if o then 5 else 100) fun t : Bool => [⟨.safe, t, !t⟩])
    ([⟨true, true⟩, ⟨true, true⟩, ⟨false, true⟩, ⟨false, true⟩, ⟨true, true⟩] ++
      List.replicate 7 ⟨false, true⟩ ++ List.replicate 8 ⟨true, true⟩)
    (fun s => decide ((∀ t, s.thread t = ⟨.idle, []⟩) ∧ s.swapped.map Prod.fst = [false, true] ∧
      s.owner true = none)) (by decide +kernel)
  obtain ⟨hidle, hswapped, hfree⟩ := of_decide_eq_true hcheck
  exact ⟨s, hs, hidle, hswapped, (swaps_take_effect_in_order _ _ hs).1 true hfree⟩

end DdsAuto.Concurrent.Swap
