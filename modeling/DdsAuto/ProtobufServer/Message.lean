import DdsAuto.Lib.CInt
import DdsAuto.Lib.Varint

/-!
# `MsgData`

The generated code of the one message of ProtobufServer, over the wire format:
`id` is a tag and a varint, `data` a tag, a length and bytes, and a default value
is left out. Of a parse that fails the fields read so far remain.
-/

namespace DdsAuto.ProtobufServer

open CInt

structure MsgData where
  id : Int32
  data : List UInt8
  deriving DecidableEq

/-- What the generated parser takes from its library: the check of a string, and
the skipping of a field it does not know, given the field's tag. -/
structure Runtime where
  verifyUtf8 : List UInt8 → Bool
  unknownFieldParse : Nat → List UInt8 → Option (List UInt8)
  unknownFieldParse_le : ∀ {tag bytes rest}, unknownFieldParse tag bytes = some rest →
    rest.length ≤ bytes.length

/-- `ReadTag`: 32 bits in at most five bytes. -/
def readTag (bytes : List UInt8) : Option (Nat × List UInt8) :=
  (Varint.decode 5 bytes).map fun (tag, rest) => (tag % 4294967296, rest)

/-- `ReadVarint64`. -/
def readVarint64 (bytes : List UInt8) : Option (Nat × List UInt8) :=
  (Varint.decode 10 bytes).map fun (n, rest) => (n % 18446744073709551616, rest)

/-- `InlineGreedyStringParser`: a length in at most five bytes and the string. -/
def readString (bytes : List UInt8) : Option (List UInt8 × List UInt8) :=
  match Varint.decode 5 bytes with
  | none => none
  | some (size, rest) =>
    if size ≤ rest.length then some (rest.take size, rest.drop size) else none

/-- One pass of the loop of `_InternalParse`: the message after it and the bytes
left, unless parsing ends here. -/
def parseField (R : Runtime) (m : MsgData) (bytes : List UInt8) : MsgData × Option (List UInt8) :=
  match readTag bytes with
  | none => (m, none)
  | some (tag, ptr) =>
    if tag / 8 = 1 ∧ tag % 256 = 8 then
      match readVarint64 ptr with
      | none => (m, none)
      | some (n, ptr) => ({ m with id := Int32.ofNat n }, some ptr)
    else if tag / 8 = 2 ∧ tag % 256 = 18 then
      match readString ptr with
      | none => (m, none)
      | some (str, ptr) => ({ m with data := str }, if R.verifyUtf8 str then some ptr else none)
    else if tag = 0 ∨ tag % 8 = 4 then (m, none)
    else (m, R.unknownFieldParse tag ptr)

theorem length_of_readTag (h : readTag bytes = some (tag, rest)) : rest.length < bytes.length := by
  obtain ⟨⟨n, rest'⟩, hd, heq⟩ := Option.map_eq_some_iff.mp h
  cases heq
  exact Varint.length_of_decode hd

theorem length_of_readVarint64 (h : readVarint64 bytes = some (n, rest)) :
    rest.length < bytes.length := by
  obtain ⟨⟨n, rest'⟩, hd, heq⟩ := Option.map_eq_some_iff.mp h
  cases heq
  exact Varint.length_of_decode hd

theorem length_of_readString (h : readString bytes = some (str, rest)) :
    str.length + rest.length < bytes.length := by
  unfold readString at h
  split at h
  · cases h
  · rename_i size ptr hd
    have hlt := Varint.length_of_decode hd
    split at h
    · cases h
      rw [List.length_take, List.length_drop]
      omega
    · cases h

/-- Each pass takes its tag, and `data` comes out of the bytes it takes. -/
theorem parseField_length {R : Runtime} {m m' : MsgData} (h : parseField R m bytes = (m', left)) :
    (∀ rest, left = some rest → rest.length < bytes.length) ∧
      (m'.data = m.data ∨ m'.data.length < bytes.length) := by
  unfold parseField at h
  split at h
  · cases h
    exact ⟨fun _ hleft => (nomatch hleft), .inl rfl⟩
  · rename_i tag ptr htag
    have htagLt := length_of_readTag htag
    split at h
    · split at h
      · cases h
        exact ⟨fun _ hleft => (nomatch hleft), .inl rfl⟩
      · rename_i n ptr' hn
        cases h
        have hlt := length_of_readVarint64 hn
        refine ⟨fun _ hleft => ?_, .inl rfl⟩
        cases hleft
        exact Nat.lt_trans hlt htagLt
    · split at h
      · split at h
        · cases h
          exact ⟨fun _ hleft => (nomatch hleft), .inl rfl⟩
        · rename_i str ptr' hstr
          cases h
          have hlt := length_of_readString hstr
          refine ⟨fun rest hleft => ?_, .inr (by simp only; omega)⟩
          simp only [Option.ite_none_right_eq_some, Option.some.injEq] at hleft
          obtain ⟨-, rfl⟩ := hleft
          omega
      · split at h
        · cases h
          exact ⟨fun _ hleft => (nomatch hleft), .inl rfl⟩
        · cases h
          refine ⟨fun rest hleft => ?_, .inl rfl⟩
          exact Nat.lt_of_le_of_lt (R.unknownFieldParse_le hleft) htagLt

/-- `_InternalParse`. -/
def internalParse (R : Runtime) (m : MsgData) (bytes : List UInt8) : MsgData :=
  if bytes.isEmpty then m
  else
    match _h : parseField R m bytes with
    | (m', none) => m'
    | (m', some rest) => internalParse R m' rest
termination_by bytes.length
decreasing_by exact (parseField_length _h).1 rest rfl

theorem internalParse_nil (R : Runtime) (m : MsgData) : internalParse R m [] = m := by
  rw [internalParse]
  rfl

theorem internalParse_next {R : Runtime} {m m' : MsgData}
    (h : parseField R m (b :: bs) = (m', some rest)) :
    internalParse R m (b :: bs) = internalParse R m' rest := by
  rw [internalParse, if_neg (by simp)]
  split
  · rename_i h'
    cases h.symm.trans h'
  · rename_i h'
    cases h.symm.trans h'
    rfl

/-- `ParseFromString` into a new message; its result is not looked at. -/
def parseFromString (R : Runtime) (bytes : List UInt8) : MsgData := internalParse R ⟨0, []⟩ bytes

theorem internalParse_data_le (R : Runtime) (m : MsgData) (bytes : List UInt8) :
    (internalParse R m bytes).data.length ≤ max m.data.length bytes.length := by
  fun_induction internalParse R m bytes with
  | case1 m bytes => exact Nat.le_max_left _ _
  | case2 m bytes hne m' hfield =>
    obtain ⟨-, hdata | hdata⟩ := parseField_length hfield
    · rw [hdata]
      exact Nat.le_max_left _ _
    · exact Nat.le_trans (Nat.le_of_lt hdata) (Nat.le_max_right _ _)
  | case3 m bytes hne m' rest hfield ih =>
    obtain ⟨hrest, hdata⟩ := parseField_length hfield
    have hlt := hrest rest rfl
    rcases hdata with hdata | hdata
    · rw [hdata] at ih
      omega
    · omega

/-- The text of a message is no longer than the bytes it was parsed from. -/
theorem parseFromString_data_le (R : Runtime) (bytes : List UInt8) :
    (parseFromString R bytes).data.length ≤ bytes.length := by
  have hle := internalParse_data_le R ⟨0, []⟩ bytes
  rwa [List.length_nil, Nat.zero_max] at hle

-- ---------------------------------------------------------------------------
-- Serialising
-- ---------------------------------------------------------------------------

/-- The varint of an `int32`, sign-extended to 64 bits. -/
def int32Varint (x : Int32) : List UInt8 := Varint.encode 10 (toSizeT x.toInt)

/-- `_InternalSerialize`. -/
def serialize (m : MsgData) : List UInt8 :=
  (if m.id ≠ 0 then 8 :: int32Varint m.id else []) ++
    (if m.data ≠ [] then 18 :: (Varint.encode 5 m.data.length ++ m.data) else [])

/-- The part of `ByteSizeLong` for `id`. -/
def MsgData.idSize (m : MsgData) : Nat := if m.id ≠ 0 then 1 + (int32Varint m.id).length else 0

/-- The part of `ByteSizeLong` for `data`. -/
def MsgData.dataSize (m : MsgData) : Nat :=
  if m.data ≠ [] then 1 + (Varint.encode 5 m.data.length).length + m.data.length else 0

def MsgData.byteSizeLong (m : MsgData) : Nat := m.dataSize + m.idSize

theorem length_serialize (m : MsgData) : (serialize m).length = m.byteSizeLong := by
  unfold serialize MsgData.byteSizeLong MsgData.dataSize MsgData.idSize
  rw [List.length_append, Nat.add_comm]
  congr 1
  · split
    · rw [List.length_cons, List.length_append]
      omega
    · rfl
  · split
    · rw [List.length_cons, Nat.add_comm]
    · rfl

theorem idSize_le (m : MsgData) : m.idSize ≤ 11 := by
  have hle := Varint.length_encode_le 10 (toSizeT m.id.toInt)
  unfold MsgData.idSize int32Varint
  split <;> omega

-- ---------------------------------------------------------------------------
-- Round trip
-- ---------------------------------------------------------------------------

theorem ofNat_toSizeT (x : Int32) : Int32.ofNat (toSizeT x.toInt) = x := by
  have hlow := x.le_toInt
  have hhigh := x.toInt_lt
  apply Int32.toInt_inj.mp
  rw [Int32.toInt_ofNat']
  unfold toSizeT
  simp only [Int.bmod, Int32.size]
  omega

theorem parseField_id (R : Runtime) (m : MsgData) (x : Int32) (rest : List UInt8) :
    parseField R m (8 :: (int32Varint x ++ rest)) = ({ m with id := x }, some rest) := by
  have htag : readTag (8 :: (int32Varint x ++ rest)) = some (8, int32Varint x ++ rest) := rfl
  have hlt : toSizeT x.toInt < 18446744073709551616 := by
    unfold toSizeT
    omega
  have hvalue : readVarint64 (int32Varint x ++ rest) = some (toSizeT x.toInt, rest) := by
    have hdecode := Varint.decode_encode (k := 9) (l := 9) (n := toSizeT x.toInt) (by omega)
      (Nat.le_refl 9) rest
    rw [readVarint64, int32Varint, hdecode, Option.map_some]
    simp only [Nat.mod_eq_of_lt hlt]
  simp only [parseField, htag, hvalue, ofNat_toSizeT]
  rfl

theorem parseField_data (R : Runtime) (m : MsgData) {str : List UInt8}
    (hlen : str.length < 2147483648) (hutf8 : R.verifyUtf8 str = true) :
    parseField R m (18 :: (Varint.encode 5 str.length ++ str)) =
      ({ m with data := str }, some []) := by
  have htag : readTag (18 :: (Varint.encode 5 str.length ++ str)) =
      some (18, Varint.encode 5 str.length ++ str) := rfl
  have hvalue : readString (Varint.encode 5 str.length ++ str) = some (str, []) := by
    have hdecode := Varint.decode_encode (k := 4) (l := 4) (n := str.length) (by omega)
      (Nat.le_refl 4) str
    simp [readString, hdecode]
  simp [parseField, htag, hvalue, hutf8]

/-- What one end serialises the other end parses back. -/
theorem parse_serialize (R : Runtime) (m : MsgData) (hlen : m.data.length < 2147483648)
    (hutf8 : R.verifyUtf8 m.data = true) : parseFromString R (serialize m) = m := by
  obtain ⟨x, str⟩ := m
  have hdata : internalParse R ⟨x, []⟩ (if str ≠ [] then
      18 :: (Varint.encode 5 str.length ++ str) else []) = ⟨x, str⟩ := by
    split
    · rw [internalParse_next (parseField_data R ⟨x, []⟩ hlen hutf8), internalParse_nil]
    · rename_i hnil
      rw [internalParse_nil, Decidable.not_not.mp hnil]
  unfold parseFromString serialize
  split
  · rw [List.cons_append, internalParse_next (parseField_id R ⟨0, []⟩ x _)]
    exact hdata
  · rename_i hzero
    rw [← Decidable.not_not.mp hzero, List.nil_append]
    exact hdata

end DdsAuto.ProtobufServer
