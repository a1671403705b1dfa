import Mathlib.Algebra.BigOperators.Group.List.Basic

/-!
# A range cut into blocks

Half-open blocks of positions that follow one another, and what the elements of a
list in them come to: put together they are the list, and in any additive monoid
their sums add up to its sum, in order and without commutativity.
-/

namespace DdsAuto.Blocks

variable {T : Type} {xs : List T} {a b m i lo : Nat} {bs : List (Nat × Nat)} {x : T}

/-- The blocks lead from `a` to `b`, each from where the one before it ends; none is empty. -/
inductive Covers : Nat → List (Nat × Nat) → Nat → Prop
  | nil {a : Nat} : Covers a [] a
  | snoc {a m b : Nat} {bs : List (Nat × Nat)} : Covers a bs m → m < b →
      Covers a (bs ++ [(m, b)]) b

/-- The elements from one position up to another. -/
def slice (xs : List T) (block : Nat × Nat) : List T :=
  (xs.drop block.1).take (block.2 - block.1)

theorem Covers.le (h : Covers a bs b) : a ≤ b := by
  induction h with
  | nil => exact Nat.le_refl _
  | snoc _ hlt ih => exact Nat.le_trans ih (Nat.le_of_lt hlt)

theorem Covers.bounds (h : Covers a bs b) (hmem : block ∈ bs) :
    a ≤ block.1 ∧ block.1 < block.2 ∧ block.2 ≤ b := by
  induction h with
  | nil => exact absurd hmem List.not_mem_nil
  | snoc h hlt ih =>
    rcases List.mem_append.mp hmem with hold | hnew
    · obtain ⟨hle, hne, hend⟩ := ih hold
      exact ⟨hle, hne, Nat.le_trans hend (Nat.le_of_lt hlt)⟩
    · obtain rfl := List.mem_singleton.mp hnew
      exact ⟨h.le, hlt, Nat.le_refl _⟩

theorem slice_append (ha : a ≤ m) (hb : m ≤ b) :
    slice xs (a, m) ++ slice xs (m, b) = slice xs (a, b) := by
  have hrest : xs.drop m = (xs.drop a).drop (m - a) := by
    rw [List.drop_drop, Nat.add_sub_cancel' ha]
  have hlen : b - a = (m - a) + (b - m) := by omega
  rw [slice, slice, slice, hrest, hlen, List.take_add]

theorem slice_singleton (hx : xs[i]? = some x) : slice xs (i, i + 1) = [x] := by
  rw [slice, Nat.add_sub_cancel_left, List.take_one, List.head?_drop, hx]
  rfl

theorem slice_snoc (hlo : lo ≤ i) (hx : xs[i]? = some x) :
    slice xs (lo, i + 1) = slice xs (lo, i) ++ [x] := by
  rw [← slice_append hlo (Nat.le_succ i), slice_singleton hx]

theorem slice_self : slice xs (a, a) = [] := by
  rw [slice, Nat.sub_self, List.take_zero]

theorem slice_all : slice xs (0, xs.length) = xs := by
  rw [slice, Nat.sub_zero, List.drop_zero, List.take_length]

theorem Covers.flatten (h : Covers a bs b) : (bs.map (slice xs)).flatten = slice xs (a, b) := by
  induction h with
  | nil => rw [slice_self]; rfl
  | snoc h hlt ih =>
    rw [List.map_append, List.flatten_append, ih, List.map_singleton, List.flatten_singleton,
      slice_append h.le (Nat.le_of_lt hlt)]

theorem Covers.sum [AddMonoid T] (h : Covers a bs b) :
    (bs.map fun block => (slice xs block).sum).sum = (slice xs (a, b)).sum := by
  rw [← h.flatten, List.sum_flatten, List.map_map]
  rfl

theorem foldl_add [AddMonoid T] (xs : List T) (init : T) :
    xs.foldl (· + ·) init = init + xs.sum := by
  induction xs generalizing init with
  | nil => exact (add_zero init).symm
  | cons x xs ih => rw [List.foldl_cons, ih, List.sum_cons, add_assoc]

end DdsAuto.Blocks
