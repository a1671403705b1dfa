/-!
# Positions of a circular buffer

A buffer of `size` slots is filled and emptied in turn; turn `k` uses slot
`k % size`. Two turns less than a round apart use different slots.
-/

namespace DdsAuto.Ring

variable {size k n : Nat}

theorem mod_ne (hlt : k < n) (hround : n < k + size) : k % size ≠ n % size := by
  intro h
  have hsub : (n - k) % size = 0 := Nat.sub_mod_eq_zero_of_mod_eq h.symm
  rw [Nat.mod_eq_of_lt (by omega)] at hsub
  omega

theorem eq_of_mod_eq {first : Nat} (hk : first ≤ k ∧ k < first + size)
    (hn : first ≤ n ∧ n < first + size) (h : k % size = n % size) : k = n := by
  rcases Nat.lt_trichotomy k n with hlt | heq | hgt
  · exact absurd h (mod_ne hlt (by omega))
  · exact heq
  · exact absurd h.symm (mod_ne hgt (by omega))

/-- An index that is counted up and set back at the end is the turn's slot. -/
theorem wrap_succ (hsize : 0 < size) (n : Nat) :
    (if n % size + 1 ≥ size then 0 else n % size + 1) = (n + 1) % size := by
  have hlt := Nat.mod_lt n hsize
  rw [← Nat.mod_add_mod]
  by_cases hend : n % size + 1 = size
  · rw [if_pos (Nat.le_of_eq hend.symm), hend, Nat.mod_self]
  · rw [if_neg (by omega), Nat.mod_eq_of_lt (show n % size + 1 < size by omega)]

end DdsAuto.Ring
