import Mathlib.Data.List.Perm.Basic
import Mathlib.Data.List.Nodup

/-!
# Histories of a container

The operations on a shared stack or queue in the order in which they took
effect. `Replays` says that a single thread could have performed them on a
container of its own; `Lifo` and `Fifo` are the two places a push may put its
value. What follows is the accounting of the values, and when a pop may find
nothing.
-/

namespace DdsAuto.History

/-- `op` is the operation that removed a value, or found none. -/
inductive Event (ω α : Type)
  | pushed (a : α)
  | popped (op : ω) (a : α)
  | empty (op : ω)
  deriving DecidableEq, Repr

variable {ω α : Type} {history pre post : List (Event ω α)} {left : List α}
variable {put : α → List α → List α} {op : ω} {a : α} {e : Event ω α}

def Event.pushed? : Event ω α → Option α
  | .pushed a => some a
  | .popped _ _ | .empty _ => none

def Event.popped? : Event ω α → Option α
  | .popped _ a => some a
  | .pushed _ | .empty _ => none

/-- The values pushed, in the order of the history. -/
def pushes (history : List (Event ω α)) : List α := history.filterMap Event.pushed?

/-- The values popped. -/
def pops (history : List (Event ω α)) : List α := history.filterMap Event.popped?

@[simp] theorem pushes_concat (history : List (Event ω α)) (e : Event ω α) :
    pushes (history ++ [e]) = pushes history ++ e.pushed?.toList := by
  cases e <;> simp [pushes, Event.pushed?]

@[simp] theorem pops_concat (history : List (Event ω α)) (e : Event ω α) :
    pops (history ++ [e]) = pops history ++ e.popped?.toList := by
  cases e <;> simp [pops, Event.popped?]

/-- What the history leaves in the container of a single thread. A pop takes the
first value; `put` is where a push puts its own. -/
inductive Replays (put : α → List α → List α) : List (Event ω α) → List α → Prop
  | nil : Replays put [] []
  | push {history : List (Event ω α)} {left : List α} (a : α) : Replays put history left →
      Replays put (history ++ [.pushed a]) (put a left)
  | pop {history : List (Event ω α)} {left : List α} {a : α} (op : ω) :
      Replays put history (a :: left) → Replays put (history ++ [.popped op a]) left
  | empty {history : List (Event ω α)} (op : ω) : Replays put history [] →
      Replays put (history ++ [.empty op]) []

/-- The history of a stack. -/
abbrev Lifo (history : List (Event ω α)) (stack : List α) : Prop :=
  Replays List.cons history stack

/-- The history of a queue. -/
abbrev Fifo (history : List (Event ω α)) (queue : List α) : Prop :=
  Replays (fun a queue => queue ++ [a]) history queue

theorem split_last {e' : Event ω α} (h : pre ++ e :: post = history ++ [e']) :
    post = [] ∧ pre = history ∧ e = e' ∨ ∃ post, pre ++ e :: post = history := by
  rcases List.eq_nil_or_concat post with rfl | ⟨front, last, rfl⟩
  · obtain ⟨hpre, he⟩ := List.append_inj' h rfl
    exact .inl ⟨rfl, hpre, List.head_eq_of_cons_eq he⟩
  · rw [List.concat_eq_append, ← List.cons_append, ← List.append_assoc] at h
    exact .inr ⟨front, (List.append_inj' h rfl).1⟩

/-- An event of the history found what the events before it left. -/
theorem Replays.found (h : Replays put (pre ++ e :: post) left) :
    ∃ before, Replays put pre before ∧ (∀ op, e = .empty op → before = []) ∧
      ∀ op a, e = .popped op a → ∃ rest, before = a :: rest := by
  generalize hall : pre ++ e :: post = history at h
  induction h generalizing post with
  | nil => simp at hall
  | push a hpush ih =>
    rcases split_last hall with ⟨-, rfl, rfl⟩ | ⟨front, hfront⟩
    · exact ⟨_, hpush, by simp, by simp⟩
    · exact ih hfront
  | pop op hpop ih =>
    rcases split_last hall with ⟨-, rfl, rfl⟩ | ⟨front, hfront⟩
    · refine ⟨_, hpop, by simp, fun op a heq => ?_⟩
      cases heq
      exact ⟨_, rfl⟩
    · exact ih hfront
  | empty op hempty ih =>
    rcases split_last hall with ⟨-, rfl, rfl⟩ | ⟨front, hfront⟩
    · exact ⟨_, hempty, fun _ _ => rfl, by simp⟩
    · exact ih hfront

-- ---------------------------------------------------------------------------
-- Stacks
-- ---------------------------------------------------------------------------

/-- No value is lost and none is made up. -/
theorem Lifo.perm (h : Lifo history left) : (pops history ++ left).Perm (pushes history) := by
  induction h with
  | nil => exact .refl _
  | push a _ ih =>
    simp only [pops_concat, pushes_concat, Event.popped?, Event.pushed?, Option.toList_none,
      Option.toList_some, List.append_nil]
    exact List.perm_middle.trans ((ih.cons a).trans (List.perm_append_singleton a _).symm)
  | pop op _ ih =>
    simpa only [pops_concat, pushes_concat, Event.popped?, Event.pushed?, Option.toList_none,
      Option.toList_some, List.append_nil, List.append_assoc, List.singleton_append] using ih
  | empty op _ ih =>
    simpa [Event.popped?, Event.pushed?] using ih

/-- A value that is pushed once is popped at most once. -/
theorem Lifo.pops_nodup (h : Lifo history left) (hnodup : (pushes history).Nodup) :
    (pops history).Nodup := by
  have hall := (Lifo.perm h).nodup_iff.mpr hnodup
  exact (List.nodup_append.mp hall).1

theorem Lifo.perm_of_empty (h : Lifo (pre ++ .empty op :: post) left) :
    (pops pre).Perm (pushes pre) := by
  obtain ⟨before, hbefore, hempty, -⟩ := Replays.found h
  have hnil := hempty op rfl
  subst hnil
  simpa using Lifo.perm hbefore

theorem Lifo.not_perm_of_popped (h : Lifo (pre ++ .popped op a :: post) left) :
    ¬ (pops pre).Perm (pushes pre) := by
  intro hperm
  obtain ⟨before, hbefore, -, hpopped⟩ := Replays.found h
  obtain ⟨rest, rfl⟩ := hpopped op a rfl
  have hlen := (Lifo.perm hbefore).length_eq.trans hperm.length_eq.symm
  simp at hlen

-- ---------------------------------------------------------------------------
-- Queues
-- ---------------------------------------------------------------------------

/-- What was removed, then what is left, is what was pushed, in this order. -/
theorem Fifo.order (h : Fifo history left) : pops history ++ left = pushes history := by
  induction h with
  | nil => rfl
  | push a _ ih =>
    simp only [pops_concat, pushes_concat, Event.popped?, Event.pushed?, Option.toList_none,
      Option.toList_some, List.append_nil]
    rw [← ih, List.append_assoc]
  | pop op _ ih =>
    simpa only [pops_concat, pushes_concat, Event.popped?, Event.pushed?, Option.toList_none,
      Option.toList_some, List.append_nil, List.append_assoc, List.singleton_append] using ih
  | empty op _ ih =>
    simpa [Event.popped?, Event.pushed?] using ih

theorem Fifo.order_of_empty (h : Fifo (pre ++ .empty op :: post) left) :
    pops pre = pushes pre := by
  obtain ⟨before, hbefore, hempty, -⟩ := Replays.found h
  have hnil := hempty op rfl
  subst hnil
  simpa using Fifo.order hbefore

end DdsAuto.History
