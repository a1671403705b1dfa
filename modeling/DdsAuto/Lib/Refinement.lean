import DdsAuto.Lib.Lts

/-!
# Refinement mappings

A lower system refines an upper one when a map of states takes every lower step
to an upper step or to no change. Both states may be taken to be reachable where
that is shown, so that invariants of either system can be used. What holds of every
state the upper system reaches then holds of every image.
-/

namespace DdsAuto.Lts

variable {σ κ ρ ι : Type} {L : Lts σ κ} {M : Lts ρ ι} {ok : σ → κ → Prop} {ok' : ρ → ι → Prop}
variable {abs : σ → ρ} {s : σ}

/-- The upper system can move from `r` to `r'`, or need not. -/
def Follows (M : Lts ρ ι) (ok' : ρ → ι → Prop) (r r' : ρ) : Prop :=
  r' = r ∨ ∃ b, ok' r b ∧ M.step r b = some r'

theorem Follows.refl (M : Lts ρ ι) (ok' : ρ → ι → Prop) (r : ρ) : M.Follows ok' r r := .inl rfl

theorem Follows.of_step {r r' : ρ} (b : ι) (hok : ok' r b) (h : M.step r b = some r') :
    M.Follows ok' r r' :=
  .inr ⟨b, hok, h⟩

theorem Reachable.follows {r r' : ρ} (h : M.Reachable ok' r) (hf : M.Follows ok' r r') :
    M.Reachable ok' r' := by
  rcases hf with rfl | ⟨b, hok, hstep⟩
  · exact h
  · exact h.step hok hstep

/-- The rule of refinement mappings. -/
theorem Reachable.map (h : L.Reachable ok s) (hinit : abs L.init = M.init)
    (hstep : ∀ s a s', L.Reachable ok s → M.Reachable ok' (abs s) → ok s a →
      L.step s a = some s' → M.Follows ok' (abs s) (abs s')) : M.Reachable ok' (abs s) := by
  induction h with
  | init =>
    rw [hinit]
    exact .init
  | step hs ha hstep' ih => exact ih.follows (hstep _ _ _ hs ih ha hstep')

/-- The same for a relation between the states in place of a map. -/
theorem Reachable.simulate {R : σ → ρ → Prop} (h : L.Reachable ok s) (hinit : R L.init M.init)
    (hstep : ∀ s a s' r, R s r → M.Reachable ok' r → ok s a → L.step s a = some s' →
      ∃ r', M.Follows ok' r r' ∧ R s' r') : ∃ r, M.Reachable ok' r ∧ R s r := by
  induction h with
  | init => exact ⟨M.init, .init, hinit⟩
  | step _ ha hstep' ih =>
    obtain ⟨r, hr, hrel⟩ := ih
    obtain ⟨r', hf, hrel'⟩ := hstep _ _ _ r hrel hr ha hstep'
    exact ⟨r', hr.follows hf, hrel'⟩

end DdsAuto.Lts
