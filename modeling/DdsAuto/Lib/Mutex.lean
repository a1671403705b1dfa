import Mathlib.Logic.Function.Basic

/-!
# Who holds a mutex

The owner a mutex records against the threads whose program points lie inside
a critical section. `Owned` says that the two agree; it follows mutual exclusion,
and it survives taking, releasing and every step that does neither.
-/

namespace DdsAuto.Mutex

variable {τ : Type} {owner : Option τ} {inside inside' : τ → Prop} {t u : τ}

/-- The threads inside the critical section are exactly the recorded owner. -/
def Owned (owner : Option τ) (inside : τ → Prop) : Prop := ∀ t, owner = some t ↔ inside t

/-- Mutual exclusion. -/
theorem Owned.unique (h : Owned owner inside) (ht : inside t) (hu : inside u) : t = u := by
  have ht := (h t).mpr ht
  have hu := (h u).mpr hu
  rw [ht] at hu
  exact Option.some.inj hu

theorem Owned.outside (h : Owned none inside) (t : τ) : ¬ inside t := fun ht => by
  have := (h t).mpr ht
  cases this

theorem Owned.keep (h : Owned owner inside) (hsame : ∀ t, inside' t ↔ inside t) :
    Owned owner inside' :=
  fun t => (h t).trans (hsame t).symm

theorem Owned.acquire (h : Owned none inside) (ht : inside' t)
    (hsame : ∀ u, u ≠ t → (inside' u ↔ inside u)) : Owned (some t) inside' := by
  intro u
  by_cases hu : u = t
  · subst hu
    exact ⟨fun _ => ht, fun _ => rfl⟩
  · rw [hsame u hu]
    refine ⟨fun he => absurd (Option.some.inj he).symm hu, fun hin => absurd hin (h.outside u)⟩

theorem Owned.release (h : Owned owner inside) (hin : inside t) (ht : ¬ inside' t)
    (hsame : ∀ u, u ≠ t → (inside' u ↔ inside u)) : Owned none inside' := by
  intro u
  refine ⟨fun he => (nomatch he), fun hu => ?_⟩
  by_cases hut : u = t
  · subst hut
    exact absurd hu ht
  · exact absurd (h.unique ((hsame u hut).mp hu) hin) hut

-- ---------------------------------------------------------------------------
-- One thread moves
-- ---------------------------------------------------------------------------

section
variable [DecidableEq τ] {α : Type} {points : τ → α} (within : α → Prop) {a : α}

theorem Owned.keep_update (h : Owned owner fun t => within (points t))
    (hsame : within a ↔ within (points t)) :
    Owned owner fun u => within (Function.update points t a u) := by
  refine h.keep fun u => ?_
  by_cases hu : u = t
  · subst hu
    rw [Function.update_self, hsame]
  · rw [Function.update_of_ne hu]

theorem Owned.acquire_update (h : Owned none fun t => within (points t)) (ha : within a) :
    Owned (some t) fun u => within (Function.update points t a u) :=
  h.acquire (by rwa [Function.update_self]) fun u hu => by rw [Function.update_of_ne hu]

theorem Owned.release_update (h : Owned owner fun t => within (points t)) (hin : within (points t))
    (ha : ¬ within a) : Owned none fun u => within (Function.update points t a u) :=
  h.release hin (by rwa [Function.update_self]) fun u hu => by rw [Function.update_of_ne hu]

end

end DdsAuto.Mutex
