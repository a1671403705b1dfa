/-!
# C integer conversions

`short`, `int` and `size_t` values as integers, with the conversions C++ applies
when it stores into them or compares across them. `int` arithmetic is plain
`Int`: none of the programs modelled here leaves the range of `int` with it.

The conversions are irreducible, so that unification does not compute with
their bounds; proofs unfold them by name.
-/

namespace DdsAuto.CInt

/-- Conversion to a 16-bit `short`. -/
@[irreducible] def toShort (x : Int) : Int := (x + 32768) % 65536 - 32768

/-- Conversion to `unsigned short`. -/
@[irreducible] def toUShort (x : Int) : Int := x % 65536

/-- Conversion to a 32-bit `int`. -/
@[irreducible] def toInt (x : Int) : Int := (2147483648 + x) % 4294967296 - 2147483648

/-- Conversion to a 64-bit `size_t`; a negative value wraps to a huge one. -/
@[irreducible] def toSizeT (x : Int) : Nat := (x % 18446744073709551616).toNat

def IsShort (x : Int) : Prop := -32768 ≤ x ∧ x ≤ 32767

instance (x : Int) : Decidable (IsShort x) := by unfold IsShort; infer_instance

theorem toShort_of_isShort (h : IsShort x) : toShort x = x := by
  unfold IsShort at h; unfold toShort; omega

theorem toShort_isShort (x : Int) : IsShort (toShort x) := by
  unfold IsShort toShort; omega

theorem toShort_natCast (n : Nat) (h : n ≤ 32767) : toShort n = n :=
  toShort_of_isShort (by unfold IsShort; omega)

theorem toInt_natCast (n : Nat) (h : n < 2147483648) : toInt n = n := by
  unfold toInt; omega

theorem toSizeT_of_nonneg (h : 0 ≤ x) (hx : x < 18446744073709551616) : toSizeT x = x.toNat := by
  unfold toSizeT; omega

theorem toSizeT_natCast (n : Nat) (h : n < 18446744073709551616) : toSizeT n = n := by
  rw [toSizeT_of_nonneg (by omega) (by omega)]; simp

@[simp] theorem toUShort_toShort (x : Int) : toUShort (toShort x) = toUShort x := by
  unfold toUShort toShort; omega

@[simp] theorem toShort_toUShort (x : Int) : toShort (toUShort x) = toShort x := by
  unfold toUShort toShort; omega

theorem toUShort_of_range (h : 0 ≤ x) (hx : x < 65536) : toUShort x = x := by
  unfold toUShort; omega

/-- The comparison of a `size_t` with a negative `short` that surprises: the
negative side becomes larger than every real length. -/
theorem le_toSizeT_of_neg (h : IsShort x) (hx : x < 0) : 18446744073709518848 ≤ toSizeT x := by
  unfold IsShort at h; unfold toSizeT; omega

-- ---------------------------------------------------------------------------
-- Host and network order
-- ---------------------------------------------------------------------------

/-- The two bytes `memcpy` takes from a `short` of a little-endian host. -/
def shortBytes (x : Int) : List UInt8 :=
  [UInt8.ofNat (toUShort x % 256).toNat, UInt8.ofNat (toUShort x / 256).toNat]

/-- `memcpy(&x, data, 2)` into a `short` of a little-endian host; bytes past
the end of `data` read as zero. -/
def loadShort (data : List UInt8) : Int :=
  toShort ((data.getD 0 0).toNat + 256 * (data.getD 1 0).toNat)

/-- `htons` of a little-endian host, its `u_short` result stored in a `short`. -/
def hostToNetworkShort (x : Int) : Int :=
  toShort (toUShort x % 256 * 256 + toUShort x / 256)

/-- `ntohs`: the same swap. -/
def networkToHostShort (x : Int) : Int := hostToNetworkShort x

/-- The big-endian value of the first two bytes, as a `short`. -/
def bigEndianShort (data : List UInt8) : Int :=
  toShort (256 * (data.getD 0 0).toNat + (data.getD 1 0).toNat)

theorem networkToHostShort_loadShort (data : List UInt8) :
    networkToHostShort (loadShort data) = bigEndianShort data := by
  have h0 := (data.getD 0 0).toNat_lt
  have h1 := (data.getD 1 0).toNat_lt
  have hu : toUShort ((data.getD 0 0).toNat + 256 * (data.getD 1 0).toNat) =
      (data.getD 0 0).toNat + 256 * (data.getD 1 0).toNat :=
    toUShort_of_range (by omega) (by omega)
  unfold networkToHostShort hostToNetworkShort loadShort bigEndianShort
  rw [toUShort_toShort, hu]
  congr 1
  omega

theorem bigEndianShort_isShort (data : List UInt8) : IsShort (bigEndianShort data) :=
  toShort_isShort _

theorem bigEndianShort_append (as bs : List UInt8) (h : 2 ≤ as.length) :
    bigEndianShort (as ++ bs) = bigEndianShort as := by
  have h0 : (as ++ bs).getD 0 0 = as.getD 0 0 := by
    simp only [List.getD_eq_getElem?_getD, List.getElem?_append_left (show 0 < as.length by omega)]
  have h1 : (as ++ bs).getD 1 0 = as.getD 1 0 := by
    simp only [List.getD_eq_getElem?_getD, List.getElem?_append_left (show 1 < as.length by omega)]
  simp only [bigEndianShort, h0, h1]

theorem loadShort_isShort (data : List UInt8) : IsShort (loadShort data) := toShort_isShort _

theorem loadShort_shortBytes (h : IsShort x) : loadShort (shortBytes x) = x := by
  have hb (n : Nat) (hn : n < 256) : (UInt8.ofNat n).toNat = n := by
    simp [UInt8.toNat_ofNat', Nat.mod_eq_of_lt hn]
  obtain ⟨u, hu, hlt⟩ : ∃ u : Nat, toUShort x = u ∧ u < 65536 :=
    ⟨(toUShort x).toNat, by unfold toUShort; omega, by unfold toUShort; omega⟩
  have hlow : ((u : Int) % 256).toNat = u % 256 := by omega
  have hhigh : ((u : Int) / 256).toNat = u / 256 := by omega
  simp only [loadShort, shortBytes, List.getD_cons_zero, List.getD_cons_succ, hu, hlow, hhigh,
    hb _ (show u % 256 < 256 by omega), hb _ (show u / 256 < 256 by omega)]
  rw [← toShort_of_isShort h, ← toShort_toUShort x, hu]
  congr 1
  omega

@[simp] theorem length_shortBytes (x : Int) : (shortBytes x).length = 2 := rfl

/-- What one end stores with `htons` the other end reads back with `ntohs`. -/
theorem bigEndianShort_shortBytes (h : IsShort x) :
    bigEndianShort (shortBytes (hostToNetworkShort x)) = x := by
  have hb (n : Nat) (hn : n < 256) : (UInt8.ofNat n).toNat = n := by
    simp [UInt8.toNat_ofNat', Nat.mod_eq_of_lt hn]
  obtain ⟨u, hu, hlt⟩ : ∃ u : Nat, toUShort x = u ∧ u < 65536 :=
    ⟨(toUShort x).toNat, by unfold toUShort; omega, by unfold toUShort; omega⟩
  have hswap : toUShort (hostToNetworkShort x) = ((u % 256 * 256 + u / 256 : Nat) : Int) := by
    unfold hostToNetworkShort
    rw [toUShort_toShort, hu]
    rw [toUShort_of_range (by omega) (by omega)]
    omega
  have hlow : ((u % 256 * 256 + u / 256 : Nat) % 256 : Int).toNat = u / 256 := by omega
  have hhigh : ((u % 256 * 256 + u / 256 : Nat) / 256 : Int).toNat = u % 256 := by omega
  simp only [bigEndianShort, shortBytes, List.getD_cons_zero, List.getD_cons_succ, hswap, hlow,
    hhigh, hb _ (show u / 256 < 256 by omega), hb _ (show u % 256 < 256 by omega)]
  rw [← toShort_of_isShort h, ← toShort_toUShort x, hu]
  congr 1
  omega

end DdsAuto.CInt
