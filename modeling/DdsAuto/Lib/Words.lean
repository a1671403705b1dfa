import DdsAuto.Lib.CInt
import DdsAuto.Lib.Memory
import Mathlib.Algebra.Ring.Nat

/-!
# Little-endian words

An unsigned word of `w` bytes as the list of its bytes, lowest first, and the
`long` of an LP64 host on top of it.
-/

namespace DdsAuto.CInt

def leBytes : Nat → Nat → List UInt8
  | 0, _ => []
  | w + 1, n => UInt8.ofNat n :: leBytes w (n / 256)

def leValue : List UInt8 → Nat
  | [] => 0
  | b :: bs => b.toNat + 256 * leValue bs

@[simp] theorem length_leBytes (w n : Nat) : (leBytes w n).length = w := by
  induction w generalizing n with
  | zero => rfl
  | succ w ih => simp [leBytes, ih]

theorem leValue_leBytes (w n : Nat) : leValue (leBytes w n) = n % 256 ^ w := by
  induction w generalizing n with
  | zero => simp [leBytes, leValue, Nat.mod_one]
  | succ w ih =>
    have hbyte : (UInt8.ofNat n).toNat = n % 256 := UInt8.toNat_ofNat'
    rw [leBytes, leValue, ih, hbyte, Nat.pow_succ, Nat.mul_comm (256 ^ w), Nat.mod_mul]

-- ---------------------------------------------------------------------------
-- `long`
-- ---------------------------------------------------------------------------

/-- Conversion to a 64-bit `long`. -/
@[irreducible] def toLong (x : Int) : Int :=
  (x + 9223372036854775808) % 18446744073709551616 - 9223372036854775808

def IsLong (x : Int) : Prop := -9223372036854775808 ≤ x ∧ x ≤ 9223372036854775807

instance (x : Int) : Decidable (IsLong x) := by unfold IsLong; infer_instance

theorem toLong_isLong (x : Int) : IsLong (toLong x) := by
  unfold IsLong toLong; omega

theorem toLong_toSizeT (h : IsLong x) : toLong (toSizeT x) = x := by
  unfold IsLong at h; unfold toLong toSizeT; omega

theorem toSizeT_lt (x : Int) : toSizeT x < 18446744073709551616 := by
  unfold toSizeT; omega

/-- The eight bytes of a `long`. -/
def longBytes (x : Int) : List UInt8 := leBytes 8 (toSizeT x)

/-- The `long` in the first eight bytes of `data`. -/
def loadLong (data : List UInt8) : Int := toLong (leValue (Memory.load data 0 8))

@[simp] theorem length_longBytes (x : Int) : (longBytes x).length = 8 := length_leBytes _ _

theorem loadLong_isLong (data : List UInt8) : IsLong (loadLong data) := toLong_isLong _

theorem loadLong_longBytes (h : IsLong x) (rest : List UInt8) :
    loadLong (longBytes x ++ rest) = x := by
  have hload : Memory.load (longBytes x ++ rest) 0 8 = longBytes x := by
    have hpre := Memory.load_append (longBytes x) rest
    rwa [length_longBytes] at hpre
  have hword : leValue (longBytes x) = toSizeT x := by
    have hlt := toSizeT_lt x
    rw [longBytes, leValue_leBytes, Nat.mod_eq_of_lt (by omega)]
  rw [loadLong, hload, hword, toLong_toSizeT h]

end DdsAuto.CInt
