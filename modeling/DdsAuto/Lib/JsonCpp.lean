/-!
# JsonCpp values

The `Json::Value` operations a program can fail in: `operator[]` with a key, and
the conversions `asInt` and `asString`; `none` is a thrown `LogicError`. Objects
are `std::map`s by key. What the library does with text and with doubles is left
to the parameters in `JsonCpp`.
-/

namespace DdsAuto.Json

abbrev Key := List UInt8

/-- A `Json::Value`; `ρ` is the type of doubles. -/
inductive Value (ρ : Type)
  | null
  | int (x : Int)
  | uint (x : Nat)
  | real (x : ρ)
  | string (s : List UInt8)
  | bool (b : Bool)
  | array (elems : List (Value ρ))
  | object (members : List (Key × Value ρ))

/-- The parts of the library that depend on text and on doubles: `realAsInt` is
`none` out of the range of `Int`, `parse` is the `root` that `Reader::parse`
leaves, on success or not, and `none` where it throws. -/
structure JsonCpp where
  Real : Type
  realAsInt : Real → Option Int
  realAsString : Real → List UInt8
  intAsString : Int → List UInt8
  parse : List UInt8 → Option (Value Real)
  toStyledString : Value Real → List UInt8

namespace Value

variable {ρ : Type}

def lookup (key : Key) : List (Key × Value ρ) → Option (Value ρ)
  | [] => none
  | (k, v) :: rest => if k = key then some v else lookup key rest

/-- Insert or replace, keeping the order of the keys. -/
def insert (key : Key) (v : Value ρ) : List (Key × Value ρ) → List (Key × Value ρ)
  | [] => [(key, v)]
  | (k, w) :: rest =>
    if k = key then (key, v) :: rest
    else if key < k then (key, v) :: (k, w) :: rest
    else (k, w) :: insert key v rest

/-- `value[key]`: the value with that member, created null if missing, and the
member itself. Only a null or an object can be indexed. -/
def index (value : Value ρ) (key : Key) : Option (Value ρ × Value ρ) :=
  match value with
  | .null => some (.object [(key, .null)], .null)
  | .object members =>
    match lookup key members with
    | some v => some (value, v)
    | none => some (.object (insert key .null members), .null)
  | _ => none

/-- `value[key] = v` on a value that can be indexed. -/
def assign (value : Value ρ) (key : Key) (v : Value ρ) : Option (Value ρ) :=
  match value with
  | .null => some (.object [(key, v)])
  | .object members => some (.object (insert key v members))
  | _ => none

theorem lookup_insert (key key' : Key) (v : Value ρ) (members : List (Key × Value ρ)) :
    lookup key' (insert key v members) = if key = key' then some v else lookup key' members := by
  induction members with
  | nil => rfl
  | cons m rest ih =>
    obtain ⟨k, w⟩ := m
    by_cases hk : k = key
    · subst hk
      by_cases hk' : k = key' <;> simp [insert, lookup, hk']
    · by_cases hlt : key < k
      · simp [insert, lookup, hk, hlt]
      · by_cases hk' : k = key'
        · subst hk'
          simp [insert, lookup, hk, hlt, show ¬ key = k from fun h => hk h.symm]
        · simp [insert, lookup, hk, hlt, hk', ih]

/-- The members of a value that can be indexed; a null has none. -/
def members : Value ρ → Option (List (Key × Value ρ))
  | .null => some []
  | .object ms => some ms
  | _ => none

/-- The members once `key` has been indexed. -/
def touch (key : Key) (ms : List (Key × Value ρ)) : List (Key × Value ρ) :=
  match lookup key ms with
  | some _ => ms
  | none => insert key .null ms

theorem index_some {value : Value ρ} (h : value.members = some ms) (key : Key) :
    value.index key = some (.object (touch key ms), (lookup key ms).getD .null) := by
  cases value with
  | null =>
    cases h
    rfl
  | object =>
    cases h
    cases hl : lookup key ms <;> simp [index, touch, hl]
  | _ => cases h

theorem index_none {value : Value ρ} (h : value.members = none) (key : Key) :
    value.index key = none := by
  cases value with
  | null | object => cases h
  | _ => rfl

/-- Indexing changes what no read sees. -/
theorem lookup_touch (key key' : Key) (ms : List (Key × Value ρ)) :
    (lookup key' (touch key ms)).getD .null = (lookup key' ms).getD .null := by
  cases h : lookup key ms with
  | some v => simp [touch, h]
  | none =>
    by_cases hk : key = key'
    · subst hk
      simp [touch, h, lookup_insert]
    · simp [touch, h, lookup_insert, hk]

end Value

namespace JsonCpp

variable (J : JsonCpp)

/-- `asInt()`. -/
def asInt : Value J.Real → Option Int
  | .null => some 0
  | .int x => if -2147483648 ≤ x ∧ x ≤ 2147483647 then some x else none
  | .uint x => if x ≤ 2147483647 then some x else none
  | .real x => J.realAsInt x
  | .bool b => some (if b then 1 else 0)
  | _ => none

/-- `asString()`. -/
def asString : Value J.Real → Option (List UInt8)
  | .null => some []
  | .int x => some (J.intAsString x)
  | .uint x => some (J.intAsString x)
  | .real x => some (J.realAsString x)
  | .string s => some s
  | .bool b => some (if b then [116, 114, 117, 101] else [102, 97, 108, 115, 101])
  | _ => none

end JsonCpp

end DdsAuto.Json
