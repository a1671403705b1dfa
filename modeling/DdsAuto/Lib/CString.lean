import DdsAuto.Lib.CInt
import Mathlib.Data.List.TakeWhile

/-!
# Strings and lines of C

A string in a buffer ends at its first NUL. `decimal` is what `printf` writes
for `%d`, `atol` what `strtol` reads back, `fgets` takes a line from a stream,
and `lines` is the loop that calls it to the end of the stream.
-/

namespace DdsAuto.CString

open CInt

/-- The string in a buffer. -/
def cstr (bytes : List UInt8) : List UInt8 := bytes.takeWhile (· ≠ 0)

/-- No byte of the text is `c`, as `takeWhile` asks for it. -/
theorem ne_of_notMem {text : List UInt8} {c : UInt8} (h : c ∉ text) :
    ∀ b ∈ text, decide (b ≠ c) = true := by
  intro b hb
  have hne : b ≠ c := by
    rintro rfl
    exact h hb
  simpa using hne

theorem cstr_of_notMem (h : 0 ∉ bytes) : cstr bytes = bytes := by
  rw [cstr, List.takeWhile_eq_self_iff]
  exact ne_of_notMem h

theorem notMem_cstr (bytes : List UInt8) : 0 ∉ cstr bytes := by
  intro h
  have hne := List.mem_takeWhile_imp h
  simp at hne

theorem length_cstr_le (bytes : List UInt8) : (cstr bytes).length ≤ bytes.length :=
  (List.takeWhile_prefix _).length_le

theorem take_length_cstr (bytes : List UInt8) : bytes.take (cstr bytes).length = cstr bytes :=
  (List.prefix_iff_eq_take.mp (List.takeWhile_prefix _)).symm

theorem length_cstr_lt_iff : (cstr bytes).length < bytes.length ↔ 0 ∈ bytes := by
  constructor
  · intro hlt
    by_contra h
    rw [cstr_of_notMem h] at hlt
    exact Nat.lt_irrefl _ hlt
  · intro h
    refine Nat.lt_of_le_of_ne (length_cstr_le bytes) fun heq => notMem_cstr bytes ?_
    rwa [← take_length_cstr, heq, List.take_length]

theorem cstr_append_zero (text tail : List UInt8) : cstr (text ++ 0 :: tail) = cstr text := by
  rw [cstr, cstr, List.takeWhile_append]
  split
  · rename_i hall
    rw [List.takeWhile_cons_of_neg (by simp), List.append_nil]
    exact ((List.takeWhile_prefix _).eq_of_length hall).symm
  · rfl

-- ---------------------------------------------------------------------------
-- Decimal numbers
-- ---------------------------------------------------------------------------

/-- `%d` of a value that is not negative. -/
def decimal (n : Nat) : List UInt8 := (Nat.toDigits 10 n).map fun c => UInt8.ofNat c.toNat

def isDigit (b : UInt8) : Bool := 48 ≤ b && b ≤ 57

/-- The blanks of `isspace`. -/
def isSpace (b : UInt8) : Bool := b = 32 || (9 ≤ b && b ≤ 13)

/-- The digits up to the first byte that is none, after `value`. -/
def digits (value : Nat) : List UInt8 → Nat
  | [] => value
  | b :: bs => if isDigit b then digits (10 * value + (b.toNat - 48)) bs else value

/-- `atol`; overflow, whose result C leaves open, is not looked at. -/
def atol (text : List UInt8) : Int :=
  match text.dropWhile isSpace with
  | 45 :: bs => -digits 0 bs
  | 43 :: bs => digits 0 bs
  | bs => digits 0 bs

/-- `atoi`: `strtol`, converted to `int`. -/
def atoi (text : List UInt8) : Int := toInt (atol text)

theorem toNat_digit {c : Char} (h : c.isDigit) : (UInt8.ofNat c.toNat).toNat = c.toNat := by
  simp only [Char.isDigit, Bool.and_eq_true, decide_eq_true_eq, UInt32.le_iff_toNat_le] at h
  have hle : c.toNat ≤ 57 := h.2
  rw [UInt8.toNat_ofNat', Nat.mod_eq_of_lt (by omega)]

theorem isDigit_digit {c : Char} (h : c.isDigit) : isDigit (UInt8.ofNat c.toNat) = true := by
  have hval := toNat_digit h
  simp only [Char.isDigit, Bool.and_eq_true, decide_eq_true_eq, UInt32.le_iff_toNat_le] at h
  have hlow : 48 ≤ c.toNat := h.1
  have hhigh : c.toNat ≤ 57 := h.2
  simp only [isDigit, Bool.and_eq_true, decide_eq_true_eq, UInt8.le_iff_toNat_le, hval]
  exact ⟨hlow, hhigh⟩

theorem isDigit_of_mem_decimal (h : b ∈ decimal n) : isDigit b = true := by
  obtain ⟨c, hc, rfl⟩ := List.mem_map.mp h
  exact isDigit_digit (Nat.isDigit_of_mem_toDigits (by decide) (by decide) hc)

theorem decimal_ne_nil (n : Nat) : decimal n ≠ [] := by
  simp [decimal]

theorem length_decimal_le (h : n < 10000000000) : (decimal n).length ≤ 10 := by
  rw [decimal, List.length_map]
  exact (Nat.length_toDigits_le_iff (by decide) (by decide)).mpr h

/-- The digits' value, as the library computes it. -/
theorem digits_map {cs : List Char} (h : ∀ c ∈ cs, c.isDigit) (value : Nat) :
    digits value (cs.map fun c => UInt8.ofNat c.toNat) = Nat.ofDigitChars 10 cs value := by
  induction cs generalizing value with
  | nil => simp [digits]
  | cons c cs ih =>
    have hc := h c List.mem_cons_self
    rw [List.map_cons, digits, if_pos (isDigit_digit hc), Nat.ofDigitChars_cons,
      ih fun c' hc' => h c' (List.mem_cons_of_mem _ hc'), toNat_digit hc]
    rfl

theorem digits_decimal (n : Nat) : digits 0 (decimal n) = n := by
  rw [decimal, digits_map fun c => Nat.isDigit_of_mem_toDigits (by decide) (by decide),
    Nat.ofDigitChars_ten_toDigits]

/-- A digit is no blank and no sign. -/
theorem of_isDigit (hb : isDigit b = true) : isSpace b = false ∧ b ≠ 45 ∧ b ≠ 43 := by
  simp only [isDigit, Bool.and_eq_true, decide_eq_true_eq, UInt8.le_iff_toNat_le,
    UInt8.toNat_ofNat] at hb
  have hne (c : UInt8) (hc : c.toNat < 48) : b ≠ c := by
    rintro rfl
    omega
  refine ⟨?_, hne 45 (by decide), hne 43 (by decide)⟩
  simp only [isSpace, hne 32 (by decide), decide_false, Bool.false_or, Bool.and_eq_false_iff,
    decide_eq_false_iff_not, UInt8.le_iff_toNat_le, UInt8.toNat_ofNat]
  omega

theorem atol_cons (hb : isDigit b = true) (bs : List UInt8) : atol (b :: bs) = digits 0 (b :: bs) := by
  obtain ⟨hspace, hminus, hplus⟩ := of_isDigit hb
  rw [atol, List.dropWhile_cons_of_neg (by simp [hspace])]
  split
  · rename_i heq
    cases heq
    exact absurd rfl hminus
  · rename_i heq
    cases heq
    exact absurd rfl hplus
  · rfl

theorem decimal_eq_cons (n : Nat) : ∃ b bs, isDigit b = true ∧ decimal n = b :: bs := by
  obtain ⟨b, bs, hdec⟩ := List.exists_cons_of_ne_nil (decimal_ne_nil n)
  exact ⟨b, bs, isDigit_of_mem_decimal (n := n) (hdec ▸ List.mem_cons_self), hdec⟩

theorem atol_decimal (n : Nat) : atol (decimal n) = n := by
  obtain ⟨b, bs, hb, hdec⟩ := decimal_eq_cons n
  have hval := digits_decimal n
  rw [hdec] at hval
  rw [hdec, atol_cons hb, hval]

/-- What follows the digits does not count. -/
theorem digits_append {ds rest : List UInt8} (h : ∀ b ∈ ds, isDigit b = true)
    (hrest : ∀ b ∈ rest.head?, isDigit b = false) (value : Nat) :
    digits value (ds ++ rest) = digits value ds := by
  induction ds generalizing value with
  | nil =>
    cases rest with
    | nil => rfl
    | cons b rest =>
      have hb : isDigit b = false := hrest b rfl
      simp [digits, hb]
  | cons d ds ih =>
    rw [List.cons_append, digits, digits, ih fun b hb => h b (List.mem_cons_of_mem _ hb)]

/-- `%ld`. -/
def longText : Int → List UInt8
  | .ofNat n => decimal n
  | .negSucc n => 45 :: decimal (n + 1)

theorem atol_longText {rest : List UInt8} (hrest : ∀ b ∈ rest.head?, isDigit b = false) (x : Int) :
    atol (longText x ++ rest) = x := by
  have hdigits (n : Nat) : digits 0 (decimal n ++ rest) = n := by
    rw [digits_append (fun b hb => isDigit_of_mem_decimal hb) hrest, digits_decimal]
  cases x with
  | ofNat n =>
    have hn := hdigits n
    obtain ⟨b, bs, hb, hdec⟩ := decimal_eq_cons n
    rw [hdec, List.cons_append] at hn
    rw [longText, hdec, List.cons_append, atol_cons hb, hn]
    rfl
  | negSucc n =>
    have hneg : atol (45 :: (decimal (n + 1) ++ rest)) = -digits 0 (decimal (n + 1) ++ rest) := rfl
    rw [longText, List.cons_append, hneg, hdigits]
    rfl

theorem atoi_decimal (h : n < 2147483648) : atoi (decimal n) = n := by
  rw [atoi, atol_decimal, toInt_natCast n h]

-- ---------------------------------------------------------------------------
-- Lines
-- ---------------------------------------------------------------------------

/-- At most `count` bytes, up to and with the first newline; and the rest. -/
def readLine : Nat → List UInt8 → List UInt8 × List UInt8
  | 0, stream => ([], stream)
  | _, [] => ([], [])
  | count + 1, b :: stream =>
    if b = 10 then ([b], stream)
    else
      let (line, rest) := readLine count stream
      (b :: line, rest)

/-- `fgets(s, size, fp)`: the bytes stored before the NUL, and what is left in
the stream; `none` at its end. -/
def fgets (size : Nat) (stream : List UInt8) : Option (List UInt8 × List UInt8) :=
  if stream = [] then none else some (readLine (size - 1) stream)

/-- `while (fgets(s, size, fp) != NULL)`, a step of `fuel` for each call; a
stream has no more lines than bytes. -/
def linesFuel (size : Nat) : Nat → List UInt8 → List (List UInt8)
  | 0, _ => []
  | fuel + 1, stream =>
    match fgets size stream with
    | none => []
    | some (line, rest) => line :: linesFuel size fuel rest

def lines (size : Nat) (stream : List UInt8) : List (List UInt8) :=
  linesFuel size stream.length stream

attribute [local simp] readLine linesFuel

theorem readLine_append (count : Nat) (stream : List UInt8) :
    (readLine count stream).1 ++ (readLine count stream).2 = stream := by
  fun_induction readLine count stream with
  | case1 stream => rfl
  | case2 => rfl
  | case3 count stream => rfl
  | case4 count b stream hb line rest heq ih =>
    rw [heq] at ih
    simpa using ih

theorem length_readLine_le (count : Nat) (stream : List UInt8) :
    (readLine count stream).1.length ≤ count := by
  fun_induction readLine count stream with
  | case1 stream => simp
  | case2 => simp
  | case3 count stream => simp
  | case4 count b stream hb line rest heq ih =>
    rw [heq] at ih
    simpa using ih

theorem readLine_ne_nil (hsize : 1 < size) (h : stream ≠ []) : (readLine (size - 1) stream).1 ≠ [] := by
  obtain ⟨b, stream, rfl⟩ := List.exists_cons_of_ne_nil h
  obtain ⟨count, hcount⟩ : ∃ count, size - 1 = count + 1 := ⟨size - 2, by omega⟩
  rw [hcount, readLine]
  split <;> simp

theorem linesFuel_flatten (hsize : 1 < size) (hfuel : stream.length ≤ fuel) :
    (linesFuel size fuel stream).flatten = stream := by
  induction fuel generalizing stream with
  | zero =>
    rw [List.length_eq_zero_iff.mp (Nat.le_zero.mp hfuel)]
    rfl
  | succ fuel ih =>
    by_cases hnil : stream = []
    · subst hnil
      rfl
    · have hsplit := readLine_append (size - 1) stream
      have hpos := List.length_pos_iff.mpr (readLine_ne_nil hsize hnil)
      have hlen := congrArg List.length hsplit
      rw [List.length_append] at hlen
      rw [linesFuel, fgets, if_neg hnil]
      simp only
      rw [List.flatten_cons, ih (by omega), hsplit]

theorem lines_flatten (hsize : 1 < size) (stream : List UInt8) : (lines size stream).flatten = stream :=
  linesFuel_flatten hsize (Nat.le_refl _)

theorem length_of_mem_linesFuel (h : line ∈ linesFuel size fuel stream) : line.length ≤ size - 1 := by
  induction fuel generalizing stream with
  | zero => cases h
  | succ fuel ih =>
    by_cases hnil : stream = []
    · subst hnil
      cases h
    · rw [linesFuel, fgets, if_neg hnil] at h
      rcases List.mem_cons.mp h with rfl | hrest
      · exact length_readLine_le _ stream
      · exact ih hrest

theorem ne_nil_of_mem_linesFuel (hsize : 1 < size) (h : line ∈ linesFuel size fuel stream) :
    line ≠ [] := by
  induction fuel generalizing stream with
  | zero => cases h
  | succ fuel ih =>
    by_cases hnil : stream = []
    · subst hnil
      cases h
    · rw [linesFuel, fgets, if_neg hnil] at h
      rcases List.mem_cons.mp h with rfl | hrest
      · exact readLine_ne_nil hsize hnil
      · exact ih hrest

/-- A line and its NUL fit in the buffer. -/
theorem length_of_mem_lines (h : line ∈ lines size stream) : line.length ≤ size - 1 :=
  length_of_mem_linesFuel h

theorem ne_nil_of_mem_lines (hsize : 1 < size) (h : line ∈ lines size stream) : line ≠ [] :=
  ne_nil_of_mem_linesFuel hsize h

end DdsAuto.CString
