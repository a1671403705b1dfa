import Mathlib.Logic.Relation

/-!
# Locks taken in descending order

Every lock has a value, and a thread takes a lock only below the value of the
last lock it took. The locks a thread holds are a stack, the last one first;
each lock can save the value from before it was taken, which makes the stack
its own undo log (`Saves`). Threads that wait for each other have descending
values, so there is no cycle of them (`not_cyclic`).
-/

namespace DdsAuto.LockOrder

variable {μ τ α : Type} {value saved saved' : μ → α} {base : α} {held : List μ} {m n : μ}

/-- The value of the last lock taken. -/
def top (value : μ → α) (base : α) : List μ → α
  | [] => base
  | m :: _ => value m

/-- Each lock holds the value from before it was taken. -/
def Saves (value : μ → α) (base : α) (saved : μ → α) : List μ → Prop
  | [] => True
  | m :: held => saved m = top value base held ∧ Saves value base saved held

theorem Saves.congr (h : Saves value base saved held) (hsame : ∀ m ∈ held, saved' m = saved m) :
    Saves value base saved' held := by
  induction held with
  | nil => trivial
  | cons m held ih =>
    refine ⟨(hsame m (by simp)).trans h.1, ih h.2 fun n hn => hsame n (by simp [hn])⟩

section
variable [LT α] [LE α] [Std.LawfulOrderLT α]

/-- The values fall from each lock to the next one taken. -/
def Descending (value : μ → α) (held : List μ) : Prop :=
  held.Pairwise fun later earlier => value later < value earlier

theorem Descending.nodup (h : Descending value held) : held.Nodup := by
  apply List.Pairwise.imp _ h
  rintro m _ hlt rfl
  exact Std.lt_irrefl hlt

/-- The lock with the least value is the last one taken. -/
theorem Descending.eq_top (h : Descending value held) (hm : m ∈ held)
    (hv : top value base held = value m) : ∃ rest, held = m :: rest := by
  cases h with
  | nil => simp at hm
  | @cons n rest hlt _ =>
    rcases List.mem_cons.mp hm with rfl | hin
    · exact ⟨rest, rfl⟩
    · have hv : value n = value m := hv
      exact absurd (hv ▸ hlt m hin) Std.lt_irrefl

variable [Std.IsLinearOrder α]

theorem Descending.top_le (h : Descending value held) (hm : m ∈ held) :
    top value base held ≤ value m := by
  cases h with
  | nil => simp at hm
  | cons hlt _ =>
    rcases List.mem_cons.mp hm with rfl | hin
    · exact Std.le_refl _
    · exact Std.le_of_lt (hlt m hin)

theorem Descending.push (h : Descending value held) (hm : value m < top value base held) :
    Descending value (m :: held) :=
  List.Pairwise.cons (fun _ hn => Std.lt_of_lt_of_le hm (h.top_le hn)) h

theorem Descending.notMem (h : Descending value held) (hm : value m < top value base held) :
    m ∉ held :=
  fun hin => Std.not_le_of_gt hm (h.top_le hin)

-- ---------------------------------------------------------------------------
-- Waiting in a circle
-- ---------------------------------------------------------------------------

variable {waits : τ → τ → Prop} {rank : τ → α} {t u : τ}

theorem rank_lt (hlt : ∀ t u, waits t u → (∃ v, waits u v) → rank u < rank t)
    (h : Relation.TransGen waits t u) (hu : ∃ v, waits u v) : rank u < rank t := by
  induction h with
  | single hone => exact hlt _ _ hone hu
  | tail _ hlast ih => exact Std.lt_trans (hlt _ _ hlast hu) (ih ⟨_, hlast⟩)

/-- Where the rank falls from each waiting thread to the next, nobody waits for
itself. -/
theorem not_cyclic (hlt : ∀ t u, waits t u → (∃ v, waits u v) → rank u < rank t) (t : τ) :
    ¬ Relation.TransGen waits t t := by
  intro h
  have hfirst : ∃ v, waits t v := by
    obtain ⟨v, hv, -⟩ := Relation.TransGen.head'_iff.mp h
    exact ⟨v, hv⟩
  exact Std.lt_irrefl (rank_lt hlt h hfirst)

end

end DdsAuto.LockOrder
