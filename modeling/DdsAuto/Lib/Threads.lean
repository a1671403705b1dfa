import Mathlib.Algebra.BigOperators.Group.Finset.Basic
import Mathlib.Algebra.Order.BigOperators.Group.Finset

/-!
# Tokens held by threads

A family of threads, each at a point of its program. A weight says how many
tokens a thread holds at each point; the total over the family is what an
accounting invariant talks about. One thread's step changes the total by the
difference of that thread's weights.
-/

namespace DdsAuto.Threads

open Function

variable {τ α : Type} [Fintype τ]

/-- The tokens all threads hold. -/
def total (w : α → Nat) (f : τ → α) : Nat := ∑ t, w (f t)

theorem total_update [DecidableEq τ] (w : α → Nat) (f : τ → α) (t : τ) (a : α) :
    total w (update f t a) + w (f t) = total w f + w a := by
  have hold : total w f = w (f t) + ∑ u ∈ Finset.univ.erase t, w (f u) :=
    (Finset.add_sum_erase Finset.univ (fun u => w (f u)) (Finset.mem_univ t)).symm
  have hnew : total w (update f t a) = w a + ∑ u ∈ Finset.univ.erase t, w (f u) := by
    have hsplit :=
      Finset.add_sum_erase Finset.univ (fun u => w (update f t a u)) (Finset.mem_univ t)
    rw [update_self] at hsplit
    rw [total, ← hsplit]
    congr 1
    refine Finset.sum_congr rfl fun u hu => ?_
    rw [update_of_ne (Finset.ne_of_mem_erase hu)]
  omega

/-- A step between two points of the same weight. -/
theorem total_update_eq [DecidableEq τ] (w : α → Nat) (f : τ → α) (t : τ) (a : α)
    (h : w (f t) = w a) : total w (update f t a) = total w f := by
  have hw := total_update w f t a
  rw [h] at hw
  exact Nat.add_right_cancel hw

theorem le_total (w : α → Nat) (f : τ → α) (t : τ) : w (f t) ≤ total w f :=
  Finset.single_le_sum (f := fun u => w (f u)) (fun _ _ => Nat.zero_le _) (Finset.mem_univ t)

theorem total_eq_zero {w : α → Nat} {f : τ → α} (h : ∀ t, w (f t) = 0) : total w f = 0 :=
  Finset.sum_eq_zero fun t _ => h t

theorem exists_of_total_pos {w : α → Nat} {f : τ → α} (h : 0 < total w f) : ∃ t, 0 < w (f t) := by
  by_contra hnone
  push Not at hnone
  have hzero := total_eq_zero fun t => Nat.le_zero.mp (hnone t)
  omega

end DdsAuto.Threads
