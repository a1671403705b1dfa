import Mathlib.Algebra.Ring.Nat

/-!
# Base-128 varints

Seven bits a byte, the lowest first; every byte but the last has its top bit
set. Writers and readers stop after a given number of bytes.
-/

namespace DdsAuto.Varint

def encode : Nat → Nat → List UInt8
  | 0, _ => []
  | k + 1, n =>
    if n < 128 then [UInt8.ofNat n] else UInt8.ofNat (n % 128 + 128) :: encode k (n / 128)

/-- The number at the front and the bytes behind it. -/
def decode : Nat → List UInt8 → Option (Nat × List UInt8)
  | 0, _ => none
  | _ + 1, [] => none
  | k + 1, b :: bs =>
    if b.toNat < 128 then some (b.toNat, bs)
    else (decode k bs).map fun (n, rest) => (b.toNat - 128 + 128 * n, rest)

variable {k n : Nat} {bytes rest : List UInt8}

theorem toNat_ofNat (h : n < 256) : (UInt8.ofNat n).toNat = n := by
  rw [UInt8.toNat_ofNat']
  exact Nat.mod_eq_of_lt h

theorem encode_small (h : n < 128) : encode (k + 1) n = [UInt8.ofNat n] := if_pos h

theorem encode_large (h : ¬ n < 128) :
    encode (k + 1) n = UInt8.ofNat (n % 128 + 128) :: encode k (n / 128) := if_neg h

theorem length_encode_le (k n : Nat) : (encode k n).length ≤ k := by
  induction k generalizing n with
  | zero => exact Nat.le_refl 0
  | succ k ih =>
    by_cases h : n < 128
    · rw [encode_small h]
      exact Nat.succ_le_succ (Nat.zero_le k)
    · rw [encode_large h]
      exact Nat.succ_le_succ (ih (n / 128))

theorem length_encode_two (hlow : 128 ≤ n) (hhigh : n < 16384) :
    (encode (k + 2) n).length = 2 := by
  rw [encode_large (Nat.not_lt.mpr hlow), encode_small (by omega)]
  rfl

/-- A reader that takes fewer bytes than the writer may write still reads a
number that is small enough. The induction is on the bytes the reader takes. -/
theorem decode_encode (hn : n < 128 ^ (k + 1)) (hk : k ≤ l) (rest : List UInt8) :
    decode (k + 1) (encode (l + 1) n ++ rest) = some (n, rest) := by
  induction k generalizing l n with
  | zero =>
    rw [Nat.pow_one] at hn
    simp [encode_small hn, decode, toNat_ofNat (show n < 256 by omega), hn]
  | succ k ih =>
    by_cases h : n < 128
    · simp [encode_small h, decode, toNat_ofNat (show n < 256 by omega), h]
    · obtain ⟨l, rfl⟩ : ∃ l', l = l' + 1 := ⟨l - 1, by omega⟩
      have hnext := ih (l := l) (n := n / 128) (by
        rw [Nat.div_lt_iff_lt_mul (by decide)]
        rwa [Nat.pow_succ] at hn) (by omega)
      have hbyte := toNat_ofNat (show n % 128 + 128 < 256 by omega)
      rw [encode_large h, List.cons_append, decode, hbyte, if_neg (by omega), hnext,
        Option.map_some, Nat.add_sub_cancel]
      simp only [Nat.mod_add_div]

theorem length_of_decode (h : decode k bytes = some (n, rest)) : rest.length < bytes.length := by
  induction k generalizing bytes n with
  | zero => cases h
  | succ k ih =>
    cases bytes with
    | nil => cases h
    | cons b bs =>
      simp only [decode] at h
      split at h
      · cases h
        exact Nat.lt_succ_self _
      · obtain ⟨⟨n', rest'⟩, hr, heq⟩ := Option.map_eq_some_iff.mp h
        cases heq
        exact Nat.lt_succ_of_lt (ih hr)

end DdsAuto.Varint
