import DdsAuto.Lib.Descent

/-!
# `Recursive_descent_parsing`: the class `Parser`

`E`, `T` and `S` call one another on a stream with one character of lookahead and
pass every character they accept to `cb`. `run_recognises`: `run` returns exactly
where what is read, white space left out, begins with an expression that the next
character does not go on with; it has then passed on that expression, and before a
throw a prefix of what is read.
-/

namespace DdsAuto.Coroutine2

open Descent
open scoped Computability

/-- `isspace` of the "C" locale. A `char` above 127 is none; C leaves that open but for
the end of the file. -/
def isspace (c : UInt8) : Bool := c == 32 || (9 ≤ c && c ≤ 13)

def isdigit (c : UInt8) : Bool := 48 ≤ c && c ≤ 57

/-- `to_char_type(eof())`: -1 as a `char`. -/
def EOF : UInt8 := 255

/-- `passed` are the characters that `cb` has been called with. -/
structure Parser where
  next : UInt8
  is : List UInt8
  passed : List UInt8
  deriving DecidableEq, Repr

/-- `next = pull()`; behind the last character `get` returns `eof()`. -/
def Parser.pull (p : Parser) : Parser :=
  match p.is with
  | [] => { p with next := EOF }
  | c :: is => { p with next := c, is }

/-- The character that `scan` stops at and what is behind it (`scan_eq`). -/
def scanFrom : List UInt8 → UInt8 × List UInt8
  | [] => (EOF, [])
  | c :: is => if isspace c then scanFrom is else (c, is)

def Parser.scan (p : Parser) : Parser :=
  { p with next := (scanFrom p.is).1, is := (scanFrom p.is).2 }

/-- `cb(next)` -/
def Parser.cb (p : Parser) : Parser := { p with passed := p.passed ++ [p.next] }

def addOp (c : UInt8) : Bool := c == '+'.toUInt8 || c == '-'.toUInt8

def mulOp (c : UInt8) : Bool := c == '*'.toUInt8 || c == '/'.toUInt8

/-- `sub(); while (op(next)) { cb(next); scan(); sub(); }` -/
def chain (op : UInt8 → Bool) (sub : Parser → Result Parser String) (fuel : Nat) (p : Parser) :
    Result Parser String :=
  (sub p).andThen (whileDo (fun p => op p.next) (fun p => sub p.cb.scan) fuel)

mutual

/-- A call takes a step of `fuel`. -/
def E : Nat → Parser → Result Parser String
  | 0, _ => none
  | fuel + 1, p => chain addOp (T fuel) fuel p

def T : Nat → Parser → Result Parser String
  | 0, _ => none
  | fuel + 1, p => chain mulOp (S fuel) fuel p

def S : Nat → Parser → Result Parser String
  | 0, _ => none
  | fuel + 1, p =>
    if isdigit p.next then some (.returned p.cb.scan)
    else if p.next == '('.toUInt8 then
      (E fuel p.cb.scan).andThen fun p =>
        if p.next == ')'.toUInt8 then some (.returned p.cb.scan) else some (.threw "1" p)
    else some (.threw "2" p)

end

/-- Of three calls one inside the other, one has taken a character. -/
def Parser.run (p : Parser) : Result Parser String := E (3 * (p.is.length + 1)) p.scan

-- ---------------------------------------------------------------------------
-- The grammar
-- ---------------------------------------------------------------------------

inductive Nonterminal
  | E
  | T
  | S
  deriving DecidableEq, Repr

/-- `E ::= T (('+'|'-') T)*`, `T ::= S (('*'|'/') S)*`, `S ::= digit | '(' E ')'`. -/
inductive Derives : Nonterminal → List UInt8 → Prop
  | sum {t : List UInt8} {ts : List (UInt8 × List UInt8)} : Derives .T t →
      (∀ x ∈ ts, addOp x.1 = true) → (∀ x ∈ ts, Derives .T x.2) → Derives .E (t ++ spell ts)
  | product {t : List UInt8} {ts : List (UInt8 × List UInt8)} : Derives .S t →
      (∀ x ∈ ts, mulOp x.1 = true) → (∀ x ∈ ts, Derives .S x.2) → Derives .T (t ++ spell ts)
  | digit {c : UInt8} : isdigit c = true → Derives .S [c]
  | paren {e : List UInt8} : Derives .E e → Derives .S ('('.toUInt8 :: (e ++ [')'.toUInt8]))

def language (n : Nonterminal) : Language UInt8 := {w | Derives n w}

theorem language_E : language .E = language .T * (symbol addOp * language .T)∗ := by
  ext w
  rw [mem_separated]
  constructor
  · intro h
    cases h with
    | sum ht hop hts => exact ⟨_, _, ht, hop, hts, rfl⟩
  · rintro ⟨t, ts, ht, hop, hts, rfl⟩
    exact .sum ht hop hts

theorem language_T : language .T = language .S * (symbol mulOp * language .S)∗ := by
  ext w
  rw [mem_separated]
  constructor
  · intro h
    cases h with
    | product ht hop hts => exact ⟨_, _, ht, hop, hts, rfl⟩
  · rintro ⟨t, ts, ht, hop, hts, rfl⟩
    exact .product ht hop hts

theorem language_S : language .S = symbol isdigit +
    symbol (· == '('.toUInt8) * (language .E * symbol (· == ')'.toUInt8)) := by
  ext w
  constructor
  · intro h
    cases h with
    | digit hc => exact .inl ⟨_, hc, rfl⟩
    | paren he =>
      have hclose : _ ++ [')'.toUInt8] ∈ language .E * symbol (· == ')'.toUInt8) :=
        Language.append_mem_mul he ⟨_, rfl, rfl⟩
      exact .inr (Language.mem_mul.mpr ⟨['('.toUInt8], ⟨_, rfl, rfl⟩, _, hclose, rfl⟩)
  · rintro (⟨c, hc, rfl⟩ | ⟨_, ⟨c, hc, rfl⟩, _, ⟨e, he, _, ⟨d, hd, rfl⟩, rfl⟩, rfl⟩)
    · exact .digit hc
    · rw [eq_of_beq hc, eq_of_beq hd]
      exact .paren he

-- ---------------------------------------------------------------------------
-- The stream
-- ---------------------------------------------------------------------------

/-- The characters from `next` on, white space left out. -/
structure Ahead (p : Parser) (u : List UInt8) : Prop where
  next : p.next = u.headD EOF
  is : (p.is.filter fun c => !isspace c) = u.tail

theorem ahead_scanFrom (is : List UInt8) :
    (scanFrom is).1 = (is.filter fun c => !isspace c).headD EOF ∧
      ((scanFrom is).2.filter fun c => !isspace c) = (is.filter fun c => !isspace c).tail := by
  induction is with
  | nil => exact ⟨rfl, rfl⟩
  | cons c is ih =>
    rw [scanFrom]
    cases hc : isspace c with
    | true => simpa [hc] using ih
    | false => simp [hc]

/-- The loop of the source, `do next = pull(); while (isspace(next))`: it ends, with
what `scan` computes. -/
theorem scan_eq (p : Parser) (hn : p.is.length < n) :
    whileDo (fun p => isspace p.next) (fun p => some (.returned p.pull)) n p.pull =
      (some (.returned p.scan) : Result Parser String) := by
  obtain ⟨next, is, passed⟩ := p
  induction is generalizing next n with
  | nil =>
    cases n with
    | zero => exact absurd hn (Nat.not_lt_zero _)
    | succ n => rfl
  | cons c is ih =>
    cases n with
    | zero => exact absurd hn (Nat.not_lt_zero _)
    | succ n =>
      have hpull : (Parser.mk next (c :: is) passed).pull = ⟨c, is, passed⟩ := rfl
      rw [whileDo, hpull]
      by_cases hc : isspace c = true
      · have hscan : (Parser.mk next (c :: is) passed).scan = (Parser.mk c is passed).scan := by
          simp [Parser.scan, scanFrom, hc]
        rw [if_pos hc, hscan]
        exact ih c (Nat.lt_of_succ_lt_succ hn)
      · rw [if_neg hc]
        simp [Parser.scan, scanFrom, hc]

theorem ahead_scan (p : Parser) : Ahead p.scan (p.is.filter fun c => !isspace c) :=
  ⟨(ahead_scanFrom p.is).1, (ahead_scanFrom p.is).2⟩

/-- The parser as a reader: `cb(next); scan();` accepts a character. -/
def scanner : Scanner Parser UInt8 where
  next := Parser.next
  accept p := p.cb.scan
  out := Parser.passed
  ending := EOF
  Ahead := Ahead
  next_eq h := h.next
  ahead_accept {p c u} h := by
    have hscan := ahead_scan p.cb
    rw [show p.cb.is = p.is from rfl, h.is] at hscan
    exact hscan
  out_accept {p c u} h := by
    show p.passed ++ [p.next] = p.passed ++ [c]
    rw [h.next, List.headD_cons]

-- ---------------------------------------------------------------------------
-- The procedures
-- ---------------------------------------------------------------------------

variable {u v : List UInt8} {fuel n : Nat}

/-- A closing parenthesis goes on with no expression. -/
def goesOn (c : UInt8) : Prop := (False ∨ mulOp c = true) ∨ addOp c = true

theorem not_mulOp (h : addOp c = true) : ¬ mulOp c = true := by
  rw [addOp, Bool.or_eq_true, beq_iff_eq, beq_iff_eq] at h
  rcases h with rfl | rfl <;> decide

theorem notOn_closing (hb : b ∈ symbol (· == ')'.toUInt8)) : NotOn goesOn (b ++ v) := by
  obtain ⟨c, hc, rfl⟩ := hb
  obtain rfl := eq_of_beq hc
  intro d hd
  cases hd
  unfold goesOn
  decide

/-- The end of `S` behind an expression. -/
theorem recognises_closing (v : List UInt8) :
    Recognises scanner (symbol (· == ')'.toUInt8)) (fun _ => False)
      (fun p =>
        if p.next == ')'.toUInt8 then some (.returned p.cb.scan) else some (.threw "1" p)) v := by
  rw [← add_zero (symbol _)]
  refine Recognises.choice rfl (fun c w hcw hc => ?_) (fun _ => Recognises.throw "1") begins_symbol
    fun p w hp => absurd hp.mem (Language.notMem_zero p)
  subst hcw
  exact Recognises.accept hc

theorem recognises_S
    (hE : ∀ v, v.length < u.length → Recognises scanner (language .E) goesOn (E fuel) v) :
    Recognises scanner (language .S) (fun _ => False) (S (fuel + 1)) u := by
  rw [language_S]
  refine Recognises.choice rfl (fun c v hcv hc => ?_) (fun _ => ?_) begins_symbol fun p v hp => ?_
  · subst hcv
    exact Recognises.accept hc
  · rw [← add_zero (symbol _ * _)]
    refine Recognises.choice rfl (fun c v hcv hc => ?_) (fun _ => Recognises.throw "2")
      begins_symbol.mul fun p v hp => absurd hp.mem (Language.notMem_zero p)
    subst hcv
    have hopen : Recognises scanner (symbol (· == '('.toUInt8)) (fun _ => False)
        (fun p => (some (.returned p.cb.scan) : Result Parser String)) (c :: v) :=
      Recognises.accept hc
    have hrest := fun w hw => (hE w hw).seq (fun _ x _ => recognises_closing x)
      fun _ _ hb _ => notOn_closing hb
    have hword := hopen.seq (fun _ w hw => hrest w hw.lt_of_symbol) fun _ _ _ _ _ _ => id
    exact hword
  · refine begins_symbol.mul.notOn (fun c hc => ?_) hp
    rw [eq_of_beq hc]
    decide

theorem recognises_T (hS : ∀ v, v.length ≤ u.length →
      Recognises scanner (language .S) (fun _ => False) (S fuel) v) (hn : u.length < fuel) :
    Recognises scanner (language .T) (fun c => False ∨ mulOp c = true) (T (fuel + 1)) u := by
  rw [language_T]
  exact Recognises.separated rfl hS (fun _ _ => id) hn

theorem recognises_E (hT : ∀ v, v.length ≤ u.length →
      Recognises scanner (language .T) (fun c => False ∨ mulOp c = true) (T fuel) v)
    (hn : u.length < fuel) : Recognises scanner (language .E) goesOn (E (fuel + 1)) u := by
  rw [language_E]
  exact Recognises.separated rfl hT (fun c hadd => not_or_intro id (not_mulOp hadd)) hn

theorem recognises (n : Nat) : ∀ u, u.length < n → ∀ fuel, 3 * n ≤ fuel →
    Recognises scanner (language .E) goesOn (E fuel) u := by
  induction n with
  | zero => exact fun u hu => absurd hu (Nat.not_lt_zero _)
  | succ n ih =>
    intro u hu fuel hfuel
    obtain ⟨fuel, rfl⟩ : ∃ k, fuel = k + 3 := ⟨fuel - 3, by omega⟩
    refine recognises_E (fun v hv => ?_) (by omega)
    refine recognises_T (fun w hw => ?_) (by omega)
    exact recognises_S fun x hx => ih x (by omega) fuel (by omega)

-- ---------------------------------------------------------------------------
-- run
-- ---------------------------------------------------------------------------

/-- `w` begins with the expression `p`, and the rest not with an operator. -/
structure Reads (w p v : List UInt8) : Prop where
  eq : w = p ++ v
  expression : Derives .E p
  rest : ∀ c ∈ v.head?, c ∉ ['+', '-', '*', '/'].map Char.toUInt8

theorem reads_iff : Reads w p v ↔ Split (language .E) goesOn w p v := by
  have hop (c : UInt8) : c ∈ ['+', '-', '*', '/'].map Char.toUInt8 ↔ goesOn c := by
    simp only [goesOn, addOp, mulOp, List.map_cons, List.map_nil, List.mem_cons, List.not_mem_nil,
      Bool.or_eq_true, beq_iff_eq]
    tauto
  constructor
  · rintro ⟨heq, hp, hv⟩
    exact ⟨heq, hp, fun c hc => (hop c).not.mp (hv c hc)⟩
  · rintro ⟨heq, hp, hv⟩
    exact ⟨heq, hp, fun c hc => (hop c).not.mpr (hv c hc)⟩

/-- `r` is how `run` ends on what `w` is without its white space. -/
structure Correct (w : List UInt8) (r : Outcome Parser String) : Prop where
  returns : (∃ q, r = .returned q) ↔ ∃ p v, Reads w p v
  passed : ∀ q, r = .returned q → ∀ p v, Reads w p v → q.passed = p
  before : ∀ e q, r = .threw e q → q.passed <+: w

theorem run_recognises (input : List UInt8) : ∃ r, (Parser.mk 0 input []).run = some r ∧
    Correct (input.filter fun c => !isspace c) r := by
  have hahead := ahead_scan ⟨0, input, []⟩
  have hlen := List.length_filter_le (fun c => !isspace c) input
  have h := recognises (input.length + 1) _ (Nat.lt_succ_of_le hlen) _ (Nat.le_refl _)
  by_cases hreads : ∃ p v, Reads (input.filter fun c => !isspace c) p v
  · obtain ⟨p, v, hp⟩ := hreads
    obtain ⟨q, hret, -, hout⟩ := h.returns hahead (reads_iff.mp hp)
    refine ⟨.returned q, hret, ⟨fun _ => ⟨p, v, hp⟩, fun _ => ⟨q, rfl⟩⟩, ?_, nofun⟩
    rintro _ ⟨⟩ p' v' hp'
    rw [(h.unique hahead (reads_iff.mp hp') (reads_iff.mp hp)).1]
    exact hout
  · obtain ⟨e, q, passed, hthrew, hprefix, hout⟩ :=
      h.throws hahead fun p v hp => hreads ⟨p, v, reads_iff.mpr hp⟩
    refine ⟨.threw e q, hthrew, ⟨nofun, fun hr => absurd hr hreads⟩, nofun, ?_⟩
    rintro _ _ ⟨⟩
    exact (show q.passed = passed from hout) ▸ hprefix

/-- The stream of `main`. -/
example : (Parser.mk 0 [49, 43, 49] []).run = some (.returned ⟨EOF, [], [49, 43, 49]⟩) := by decide

end DdsAuto.Coroutine2
