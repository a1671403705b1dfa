import Mathlib.Computability.Language

/-!
# Recursive descent with one symbol of lookahead

Procedures that read a word from left to right, put out what they accept, and
return or throw. `Recognises` says that a procedure reads a word of a language, up
to a symbol that could not go on with it, and throws where there is no such word;
the rules below carry it through sequence, choice on the symbol in front, and loops.
-/

namespace DdsAuto.Descent

open scoped Computability

variable {σ ε α : Type}

-- ---------------------------------------------------------------------------
-- Procedures
-- ---------------------------------------------------------------------------

/-- How a call ends. -/
inductive Outcome (σ ε : Type)
  | returned (s : σ)
  | threw (e : ε) (s : σ)
  deriving DecidableEq, Repr

/-- `none` is a call still running when the fuel is spent. -/
abbrev Result (σ ε : Type) := Option (Outcome σ ε)

def Result.andThen (r : Result σ ε) (f : σ → Result σ ε) : Result σ ε :=
  match r with
  | some (.returned s) => f s
  | some (.threw e s) => some (.threw e s)
  | none => none

/-- `while (test) body`, a step of `fuel` for each test. -/
def whileDo (test : σ → Bool) (body : σ → Result σ ε) : Nat → σ → Result σ ε
  | 0, _ => none
  | fuel + 1, s =>
    if test s then (body s).andThen (whileDo test body fuel) else some (.returned s)

/-- A reader that shows the symbol in front. `accept` puts it out and goes on to the
one behind; where `Ahead s u`, the symbols from `next` on are `u`. -/
structure Scanner (σ α : Type) where
  next : σ → α
  accept : σ → σ
  out : σ → List α
  /-- What is shown behind the last symbol. -/
  ending : α
  Ahead : σ → List α → Prop
  next_eq : Ahead s u → next s = u.headD ending
  ahead_accept : Ahead s (c :: u) → Ahead (accept s) u
  out_accept : Ahead s (c :: u) → out (accept s) = out s ++ [c]

-- ---------------------------------------------------------------------------
-- What a procedure recognises
-- ---------------------------------------------------------------------------

/-- The word does not begin with one of these symbols. -/
def NotOn (on : α → Prop) (v : List α) : Prop := ∀ c ∈ v.head?, ¬ on c

/-- `u` is a word of `A`, and a rest that does not go on with it. -/
structure Split (A : Language α) (on : α → Prop) (u p v : List α) : Prop where
  eq : u = p ++ v
  mem : p ∈ A
  rest : NotOn on v

/-- On `u` the procedure reads the word of `A` and stops at the rest; where there is
none it throws, and what it has put out until then is a prefix of `u`. -/
structure Recognises (S : Scanner σ α) (A : Language α) (on : α → Prop) (f : σ → Result σ ε)
    (u : List α) : Prop where
  returns : S.Ahead s u → Split A on u p v →
    ∃ s', f s = some (.returned s') ∧ S.Ahead s' v ∧ S.out s' = S.out s ++ p
  throws : S.Ahead s u → (∀ p v, ¬ Split A on u p v) →
    ∃ e s' q, f s = some (.threw e s') ∧ q <+: u ∧ S.out s' = S.out s ++ q

variable {S : Scanner σ α} {A B : Language α} {on on' : α → Prop} {op : α → Bool}
variable {f g : σ → Result σ ε} {u v p q : List α} {c : α} {s : σ}

/-- What is read is determined by `u`. -/
theorem Recognises.unique (h : Recognises S A on f u) (hs : S.Ahead s u)
    (hp : Split A on u p v) (hq : Split A on u q w) : p = q ∧ v = w := by
  obtain ⟨t, hret, -, hout⟩ := h.returns hs hp
  obtain ⟨t', hret', -, hout'⟩ := h.returns hs hq
  rw [hret] at hret'
  cases hret'
  have hpq : p = q := List.append_cancel_left (hout.symm.trans hout')
  subst hpq
  exact ⟨rfl, List.append_cancel_left (hp.eq.symm.trans hq.eq)⟩

/-- The words of one symbol. -/
def symbol (op : α → Bool) : Language α := {w | ∃ c, op c = true ∧ w = [c]}

theorem mem_symbol : p ∈ symbol op ↔ ∃ c, op c = true ∧ p = [c] := Iff.rfl

/-- Every word begins with such a symbol. -/
def Begins (A : Language α) (op : α → Bool) : Prop := ∀ p ∈ A, ∃ c ∈ p.head?, op c = true

theorem begins_symbol : Begins (symbol op) op := by
  rintro p ⟨c, hop, rfl⟩
  exact ⟨c, rfl, hop⟩

theorem Begins.mul (h : Begins A op) : Begins (A * B) op := by
  intro p hp
  obtain ⟨a, ha, b, -, rfl⟩ := Language.mem_mul.mp hp
  obtain ⟨c, hc, hop⟩ := h a ha
  exact ⟨c, List.mem_head?_append_of_mem_head? hc, hop⟩

theorem Begins.head (h : Begins A op) (hp : Split A on u p v) : ∃ c ∈ u.head?, op c = true := by
  obtain ⟨c, hc, hop⟩ := h p hp.mem
  exact ⟨c, hp.eq ▸ List.mem_head?_append_of_mem_head? hc, hop⟩

theorem Begins.notOn (h : Begins A op) (hne : ∀ c, op c = true → ¬ on' c) (hp : Split A on u p v) :
    NotOn on' u := by
  obtain ⟨c, hc, hop⟩ := h.head hp
  intro d hd
  obtain rfl := Option.mem_unique hc hd
  exact hne c hop

theorem Split.lt_of_symbol (h : Split (symbol op) on u p v) : v.length < u.length := by
  obtain ⟨c, -, rfl⟩ := h.mem
  rw [h.eq]
  exact Nat.lt_succ_self _

-- ---------------------------------------------------------------------------
-- The rules
-- ---------------------------------------------------------------------------

/-- `return`, where the rest does not go on. -/
theorem Recognises.skip (hu : NotOn on u) :
    Recognises S 1 on (fun s => (some (.returned s) : Result σ ε)) u where
  returns := by
    rintro s p v hs ⟨rfl, hp, -⟩
    obtain rfl := (Language.mem_one p).mp hp
    exact ⟨s, rfl, hs, (List.append_nil _).symm⟩
  throws := fun _ hnone => absurd ⟨rfl, Language.nil_mem_one, hu⟩ (hnone [] u)

/-- `throw`, where no word is looked for. -/
theorem Recognises.throw (e : ε) :
    Recognises S 0 on (fun s => (some (.threw e s) : Result σ ε)) u where
  returns := fun _ hp => absurd hp.mem (Language.notMem_zero _)
  throws := fun {s} _ _ => ⟨e, s, [], rfl, List.nil_prefix, (List.append_nil _).symm⟩

/-- The symbol in front, when it has been looked at. -/
theorem Recognises.accept (hc : op c = true) :
    Recognises S (symbol op) (fun _ => False)
      (fun s => (some (.returned (S.accept s)) : Result σ ε)) (c :: v) where
  returns := by
    rintro s p w hs ⟨heq, hp, -⟩
    obtain ⟨d, -, rfl⟩ := mem_symbol.mp hp
    cases heq
    exact ⟨S.accept s, rfl, S.ahead_accept hs, S.out_accept hs⟩
  throws := fun _ hnone => absurd ⟨rfl, ⟨c, hc, rfl⟩, fun _ _ => id⟩ (hnone [c] v)

/-- One procedure after the other: what the second one reads, or what stops it, must
stop the first one. -/
theorem Recognises.seq (hf : Recognises S A on f u)
    (hg : ∀ p v, Split A on u p v → Recognises S B on' g v)
    (hnext : ∀ b v, b ∈ B → NotOn on' v → NotOn on (b ++ v)) :
    Recognises S (A * B) on' (fun s => (f s).andThen g) u where
  returns := by
    rintro s p v hs ⟨heq, hp, hv⟩
    obtain ⟨a, ha, b, hb, rfl⟩ := Language.mem_mul.mp hp
    have hfirst : Split A on u a (b ++ v) :=
      ⟨heq.trans (List.append_assoc a b v), ha, hnext b v hb hv⟩
    obtain ⟨t, hret, ht, hout⟩ := hf.returns hs hfirst
    obtain ⟨s', hret', hs', hout'⟩ := (hg _ _ hfirst).returns ht ⟨rfl, hb, hv⟩
    refine ⟨s', ?_, hs', ?_⟩
    · rw [hret]
      exact hret'
    · rw [hout', hout, List.append_assoc]
  throws := by
    intro s hs hnone
    by_cases hfirst : ∃ p v, Split A on u p v
    · obtain ⟨p, v, hp⟩ := hfirst
      obtain ⟨t, hret, ht, hout⟩ := hf.returns hs hp
      have hstuck : ∀ b w, ¬ Split B on' v b w := fun b w hb =>
        hnone (p ++ b) w ⟨by rw [hp.eq, hb.eq, List.append_assoc],
          Language.append_mem_mul hp.mem hb.mem, hb.rest⟩
      obtain ⟨e, s', q, hthrew, hq, hout'⟩ := (hg p v hp).throws ht hstuck
      refine ⟨e, s', p ++ q, ?_, ?_, ?_⟩
      · rw [hret]
        exact hthrew
      · rw [hp.eq]
        exact (List.prefix_append_right_inj p).mpr hq
      · rw [hout', hout, List.append_assoc]
    · obtain ⟨e, s', q, hthrew, hq, hout⟩ :=
        hf.throws hs fun p v hp => hfirst ⟨p, v, hp⟩
      refine ⟨e, s', q, ?_, hq, hout⟩
      rw [hthrew]
      rfl

theorem split_add : Split (A + B) on u p v ↔ Split A on u p v ∨ Split B on u p v := by
  constructor
  · rintro ⟨heq, ha | hb, hv⟩
    · exact .inl ⟨heq, ha, hv⟩
    · exact .inr ⟨heq, hb, hv⟩
  · rintro (⟨heq, ha, hv⟩ | ⟨heq, hb, hv⟩)
    · exact ⟨heq, .inl ha, hv⟩
    · exact ⟨heq, .inr hb, hv⟩

theorem Recognises.congr (h : Recognises S A on f u)
    (hsplit : ∀ p v, Split B on u p v ↔ Split A on u p v)
    (hfg : ∀ s, S.Ahead s u → g s = f s) : Recognises S B on g u where
  returns := by
    intro s p v hs hp
    rw [hfg s hs]
    exact h.returns hs ((hsplit p v).mp hp)
  throws := by
    intro s hs hnone
    rw [hfg s hs]
    exact h.throws hs fun p v hp => hnone p v ((hsplit p v).mpr hp)

/-- The symbol in front decides between the two. -/
theorem Recognises.choice (hend : op S.ending = false)
    (hthen : ∀ c v, u = c :: v → op c = true → Recognises S A on f u)
    (helse : NotOn (fun c => op c = true) u → Recognises S B on g u)
    (hA : Begins A op)
    (hB : ∀ p v, Split B on u p v → NotOn (fun c => op c = true) u) :
    Recognises S (A + B) on (fun s => if op (S.next s) then f s else g s) u := by
  by_cases hu : ∃ c ∈ u.head?, op c = true
  · obtain ⟨c, hc, hop⟩ := hu
    obtain ⟨v, rfl⟩ := List.head?_eq_some_iff.mp hc
    refine (hthen c v rfl hop).congr (fun p w => ?_) fun s hs => ?_
    · rw [split_add, or_iff_left]
      exact fun hp => hB p w hp c hc hop
    · rw [S.next_eq hs, List.headD_cons, if_pos hop]
  · have hnot : NotOn (fun c => op c = true) u := fun c hc hop => hu ⟨c, hc, hop⟩
    refine (helse hnot).congr (fun p w => ?_) fun s hs => ?_
    · rw [split_add, or_iff_right]
      exact fun hp => hu (hA.head hp)
    · have hnext : ¬ op (S.next s) = true := by
        rw [S.next_eq hs]
        cases u with
        | nil => simp [hend]
        | cons c v => exact hnot c rfl
      rw [if_neg hnext]

theorem head_of_mem_kstar (hB : Begins B op) (hp : p ∈ B∗) :
    p = [] ∨ ∃ c ∈ p.head?, op c = true := by
  rw [← Language.one_add_self_mul_kstar_eq_kstar] at hp
  rcases hp with hp | hp
  · exact .inl ((Language.mem_one p).mp hp)
  · exact .inr (hB.mul p hp)

/-- In front of a star stands what stops the loop, or a symbol that lets it go on. -/
theorem notOn_of_mem_kstar (hB : Begins B op) (hon : ∀ c, op c = true → ¬ on c) (hp : p ∈ B∗)
    (hv : NotOn (fun c => on c ∨ op c = true) v) : NotOn on (p ++ v) := by
  rcases head_of_mem_kstar hB hp with rfl | ⟨d, hd, hop⟩
  · exact fun d hd hond => hv d hd (.inl hond)
  · intro e he
    obtain rfl := Option.mem_unique (List.mem_head?_append_of_mem_head? hd) he
    exact hon d hop

/-- A loop whose body reads a word each time the symbol in front lets it in. -/
theorem Recognises.whileDo {body : σ → Result σ ε} (hend : op S.ending = false)
    (hbody : ∀ c v, v.length < u.length → op c = true → Recognises S B on body (c :: v))
    (hB : Begins B op) (hon : ∀ c, op c = true → ¬ on c) (hu : NotOn on u) (hn : u.length < n) :
    Recognises S B∗ (fun c => on c ∨ op c = true)
      (whileDo (fun s => op (S.next s)) body n) u := by
  induction n generalizing u with
  | zero => exact absurd hn (Nat.not_lt_zero _)
  | succ n ih =>
    rw [← Language.one_add_self_mul_kstar_eq_kstar, add_comm]
    refine Recognises.choice hend (fun c v hcv hop => ?_) (fun hnot => ?_) hB.mul fun p v hp => ?_
    · -- one pass, and the others on what it leaves
      subst hcv
      refine (hbody c v (Nat.lt_succ_self _) hop).seq (fun p w hp => ?_)
        fun b w hb hw => notOn_of_mem_kstar hB hon hb hw
      have hlt : w.length < (c :: v).length := by
        obtain ⟨d, hd, -⟩ := hB p hp.mem
        obtain ⟨x, rfl⟩ := List.head?_eq_some_iff.mp hd
        rw [hp.eq, List.length_append, List.length_cons]
        omega
      exact ih (fun d x hx => hbody d x (hx.trans hlt)) hp.rest (by omega)
    · exact Recognises.skip fun c hc hor => hor.elim (hu c hc) (hnot c hc)
    · obtain rfl := (Language.mem_one p).mp hp.mem
      rw [hp.eq]
      exact fun c hc hop => hp.rest c hc (.inr hop)

/-- `sub(); while (op(next)) { accept(); sub(); }` reads words with symbols between them. -/
theorem Recognises.separated (hend : op S.ending = false)
    (hf : ∀ v, v.length ≤ u.length → Recognises S A on f v)
    (hon : ∀ c, op c = true → ¬ on c) (hn : u.length < n) :
    Recognises S (A * (symbol op * A)∗) (fun c => on c ∨ op c = true)
      (fun s => (f s).andThen
        (Descent.whileDo (fun s => op (S.next s)) (fun s => f (S.accept s)) n)) u := by
  have hB : Begins (symbol op * A) op := begins_symbol.mul
  refine (hf u (Nat.le_refl _)).seq (fun p v hp => ?_)
    fun b v hb hv => notOn_of_mem_kstar hB hon hb hv
  have hle : v.length ≤ u.length := by
    rw [hp.eq, List.length_append]
    exact Nat.le_add_left _ _
  refine Recognises.whileDo hend (fun c w hw hop => ?_) hB hon hp.rest (by omega)
  refine (Recognises.accept hop).seq (fun q x hq => ?_) fun _ _ _ _ _ _ => id
  obtain ⟨d, -, rfl⟩ := mem_symbol.mp hq.mem
  obtain rfl : w = x := (List.cons.inj hq.eq).2
  exact hf w (by omega)

/-- Words, each behind its symbol. -/
def spell (ts : List (α × List α)) : List α := ts.flatMap fun x => x.1 :: x.2

theorem mem_kstar_symbol : p ∈ (symbol op * A)∗ ↔ ∃ ts : List (α × List α),
    (∀ x ∈ ts, op x.1 = true) ∧ (∀ x ∈ ts, x.2 ∈ A) ∧ p = spell ts := by
  constructor
  · intro hp
    obtain ⟨L, rfl, hL⟩ := Language.mem_kstar.mp hp
    clear hp
    induction L with
    | nil => exact ⟨[], by simp, by simp, rfl⟩
    | cons y L ih =>
      obtain ⟨ts, hop, hts, heq⟩ := ih fun z hz => hL z (List.mem_cons_of_mem y hz)
      obtain ⟨a, ⟨c, hc, rfl⟩, w, hw, rfl⟩ := Language.mem_mul.mp (hL y List.mem_cons_self)
      refine ⟨(c, w) :: ts, List.forall_mem_cons.mpr ⟨hc, hop⟩,
        List.forall_mem_cons.mpr ⟨hw, hts⟩, ?_⟩
      rw [List.flatten_cons, heq]
      rfl
  · rintro ⟨ts, hop, hts, rfl⟩
    refine Language.join_mem_kstar fun y hy => ?_
    obtain ⟨x, hx, rfl⟩ := List.mem_map.mp hy
    exact Language.mem_mul.mpr ⟨[x.1], ⟨x.1, hop x hx, rfl⟩, x.2, hts x hx, rfl⟩

theorem mem_separated : p ∈ A * (symbol op * A)∗ ↔ ∃ a, ∃ ts : List (α × List α), a ∈ A ∧
    (∀ x ∈ ts, op x.1 = true) ∧ (∀ x ∈ ts, x.2 ∈ A) ∧ p = a ++ spell ts := by
  constructor
  · intro hp
    obtain ⟨a, ha, b, hb, rfl⟩ := Language.mem_mul.mp hp
    obtain ⟨ts, hop, hts, rfl⟩ := mem_kstar_symbol.mp hb
    exact ⟨a, ts, ha, hop, hts, rfl⟩
  · rintro ⟨a, ts, ha, hop, hts, rfl⟩
    exact Language.append_mem_mul ha (mem_kstar_symbol.mpr ⟨ts, hop, hts, rfl⟩)

end DdsAuto.Descent
