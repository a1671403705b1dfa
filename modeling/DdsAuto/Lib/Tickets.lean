import DdsAuto.Lib.Refinement
import Mathlib.Data.List.Basic

/-!
# Numbers drawn one at a time

Whoever draws gets the number that is next, and puts the one after it in its place.
One who is lost between the two leaves the number to be drawn again. Where nobody is
lost, the numbers drawn are 0, 1, 2 and so on.
-/

namespace DdsAuto.Tickets

open Lts

variable {τ : Type}

/-- `holder` has drawn and not put the next number yet. -/
structure State (τ : Type) where
  next : Nat
  holder : Option τ
  drawn : List (τ × Nat)
  lost : Nat

inductive Label (τ : Type)
  | draw (t : τ)
  | put (t : τ)
  | lose (t : τ)

def State.numbers (s : State τ) : List Nat := s.drawn.map (·.2)

section
variable [DecidableEq τ]

def step (s : State τ) : Label τ → Option (State τ)
  | .draw t =>
    if s.holder = none then
      some { s with holder := some t, drawn := s.drawn ++ [(t, s.next)] }
    else none
  | .put t =>
    if s.holder = some t then some { s with holder := none, next := s.next + 1 } else none
  | .lose t =>
    if s.holder = some t then some { s with holder := none, lost := s.lost + 1 } else none

def system (τ : Type) [DecidableEq τ] : Lts (State τ) (Label τ) where
  init := ⟨0, none, [], 0⟩
  step := step

end

/-- `all` and `le` say that the numbers drawn have no gap. -/
structure Inv (s : State τ) : Prop where
  sorted : s.numbers.Pairwise (· ≤ ·)
  le : ∀ n ∈ s.numbers, n ≤ s.next
  all : ∀ n < s.next, n ∈ s.numbers
  held : s.holder ≠ none → s.next ∈ s.numbers
  length : s.numbers.length = s.next + s.lost + if s.holder = none then 0 else 1
  exact : s.lost = 0 → s.numbers = List.range s.numbers.length

variable {s s' : State τ} {t : τ}

theorem inv_draw (h : Inv s) (hfree : s.holder = none) :
    Inv { s with holder := some t, drawn := s.drawn ++ [(t, s.next)] } := by
  have hnumbers : State.numbers { s with holder := some t, drawn := s.drawn ++ [(t, s.next)] } =
      s.numbers ++ [s.next] := List.map_append
  have hlen := h.length
  rw [if_pos hfree, Nat.add_zero] at hlen
  refine ⟨?_, ?_, ?_, ?_, ?_, ?_⟩ <;> rw [hnumbers]
  · rw [List.pairwise_append]
    refine ⟨h.sorted, List.pairwise_singleton .., fun n hn m hm => ?_⟩
    rw [List.mem_singleton.mp hm]
    exact h.le n hn
  · intro n hn
    rcases List.mem_append.mp hn with hn | hn
    · exact h.le n hn
    · exact Nat.le_of_eq (List.mem_singleton.mp hn)
  · exact fun n hn => List.mem_append_left _ (h.all n hn)
  · exact fun _ => List.mem_append_right _ (List.mem_singleton_self _)
  · rw [List.length_append, hlen, if_neg (by simp)]
    rfl
  · intro hlost
    have hzero : s.lost = 0 := hlost
    rw [List.length_append, List.length_singleton, List.range_succ, ← h.exact hzero, hlen, hzero,
      Nat.add_zero]

theorem inv_put (h : Inv s) (hheld : s.holder = some t) :
    Inv { s with holder := none, next := s.next + 1 } := by
  have hlen := h.length
  rw [hheld, if_neg (by simp)] at hlen
  refine ⟨h.sorted, fun n hn => Nat.le_succ_of_le (h.le n hn), fun n hn => ?_, fun hne => absurd rfl hne,
    ?_, h.exact⟩
  · rcases Nat.lt_succ_iff_lt_or_eq.mp hn with hlt | rfl
    · exact h.all n hlt
    · exact h.held (by rw [hheld]; simp)
  · show s.numbers.length = s.next + 1 + s.lost + 0
    omega

theorem inv_lose (h : Inv s) (hheld : s.holder = some t) :
    Inv { s with holder := none, lost := s.lost + 1 } := by
  have hlen := h.length
  rw [hheld, if_neg (by simp)] at hlen
  refine ⟨h.sorted, h.le, h.all, fun hne => absurd rfl hne, ?_, fun hlost => absurd hlost (by simp)⟩
  show s.numbers.length = s.next + (s.lost + 1) + 0
  omega

variable [DecidableEq τ]

theorem inv_step {a : Label τ} (h : Inv s) (hstep : step s a = some s') : Inv s' := by
  cases a with
  | draw t =>
    simp only [step, Option.ite_none_right_eq_some, Option.some.injEq] at hstep
    obtain ⟨hfree, rfl⟩ := hstep
    exact inv_draw h hfree
  | put t =>
    simp only [step, Option.ite_none_right_eq_some, Option.some.injEq] at hstep
    obtain ⟨hheld, rfl⟩ := hstep
    exact inv_put h hheld
  | lose t =>
    simp only [step, Option.ite_none_right_eq_some, Option.some.injEq] at hstep
    obtain ⟨hheld, rfl⟩ := hstep
    exact inv_lose h hheld

theorem inv_of_reachable {ok : State τ → Label τ → Prop} (h : (system τ).Reachable ok s) : Inv s :=
  h.invariant
    ⟨List.Pairwise.nil, fun _ hn => absurd hn List.not_mem_nil, fun _ hn => absurd hn (Nat.not_lt_zero _),
      fun hne => absurd rfl hne, rfl, fun _ => rfl⟩
    fun _ _ _ hs _ hstep => inv_step hs hstep

end DdsAuto.Tickets
