import Mathlib.Algebra.BigOperators.Group.Finset.Basic
import Mathlib.Algebra.BigOperators.Group.Finset.Piecewise

/-!
# Typed message queues

A queue of messages with types, as System V has it: a sender appends, a receiver
takes the oldest message of the type it asks for. `ofType` is the queue as the
receiver of one type sees it, and a queue of its own for each type.
-/

namespace DdsAuto.MsgQueue

structure Msg (β : Type) where
  type : Int
  data : β
  deriving DecidableEq, Repr

variable {β : Type} {m : Msg β} {q q' : List (Msg β)} {t u : Int}

/-- The oldest message of type `t`, and the queue without it. -/
def rcv (t : Int) : List (Msg β) → Option (Msg β × List (Msg β))
  | [] => none
  | m :: q => if m.type = t then some (m, q) else (rcv t q).map fun r => (r.1, m :: r.2)

/-- The data of the messages of type `t`, the oldest first. -/
def ofType (t : Int) (q : List (Msg β)) : List β := (q.filter fun m => m.type = t).map Msg.data

@[simp] theorem ofType_nil : ofType t ([] : List (Msg β)) = [] := rfl

theorem ofType_cons_self (q : List (Msg β)) : ofType m.type (m :: q) = m.data :: ofType m.type q := by
  rw [ofType, List.filter_cons_of_pos (by simp), List.map_cons]
  rfl

theorem ofType_cons_of_ne (h : m.type ≠ t) : ofType t (m :: q) = ofType t q := by
  rw [ofType, List.filter_cons_of_neg (by simpa using h)]
  rfl

@[simp] theorem ofType_append_self (q : List (Msg β)) (d : β) :
    ofType t (q ++ [⟨t, d⟩]) = ofType t q ++ [d] := by
  simp [ofType]

theorem ofType_append_of_ne (h : u ≠ t) (d : β) : ofType t (q ++ [⟨u, d⟩]) = ofType t q := by
  simp [ofType, h]

theorem rcv_eq_none_iff : rcv t q = none ↔ ofType t q = [] := by
  induction q with
  | nil => simp [rcv]
  | cons m q ih =>
    by_cases h : m.type = t
    · subst h
      simp [rcv, ofType_cons_self]
    · rw [rcv, if_neg h, ofType_cons_of_ne h, Option.map_eq_none_iff, ih]

theorem rcv_split (h : rcv t q = some (m, q')) :
    ∃ before after, q = before ++ m :: after ∧ q' = before ++ after ∧ m.type = t ∧
      ∀ m' ∈ before, m'.type ≠ t := by
  induction q generalizing q' with
  | nil => cases h
  | cons m₀ q ih =>
    by_cases ht : m₀.type = t
    · rw [rcv, if_pos ht] at h
      cases h
      exact ⟨[], q, rfl, rfl, ht, by simp⟩
    · rw [rcv, if_neg ht, Option.map_eq_some_iff] at h
      obtain ⟨⟨m₁, q₁⟩, hrest, heq⟩ := h
      cases heq
      obtain ⟨before, after, rfl, rfl, htype, hbefore⟩ := ih hrest
      refine ⟨m₀ :: before, after, rfl, rfl, htype, ?_⟩
      rintro m' (_ | ⟨_, hm'⟩)
      · exact ht
      · exact hbefore m' hm'

theorem type_of_rcv (h : rcv t q = some (m, q')) : m.type = t := by
  obtain ⟨_, _, _, _, htype, _⟩ := rcv_split h
  exact htype

theorem ofType_of_rcv (h : rcv t q = some (m, q')) : ofType t q = m.data :: ofType t q' := by
  obtain ⟨before, after, rfl, rfl, rfl, hbefore⟩ := rcv_split h
  have hnone : before.filter (fun m' => m'.type = m.type) = [] := by
    simpa [List.filter_eq_nil_iff] using hbefore
  simp [ofType, List.filter_append, hnone]

theorem ofType_of_rcv_of_ne (h : rcv t q = some (m, q')) (hu : u ≠ t) : ofType u q' = ofType u q := by
  obtain ⟨before, after, rfl, rfl, rfl, -⟩ := rcv_split h
  simp [ofType, List.filter_append, Ne.symm hu]

theorem mem_of_mem_rcv (h : rcv t q = some (m, q')) {m' : Msg β} (hm : m' ∈ q') : m' ∈ q := by
  obtain ⟨before, after, rfl, rfl, -, -⟩ := rcv_split h
  rcases List.mem_append.mp hm with hb | ha
  · exact List.mem_append_left _ hb
  · exact List.mem_append_right _ (List.mem_cons_of_mem _ ha)

/-- Where every message has one type, the queue is an ordinary one. -/
@[simp] theorem rcv_of_map (d : β) (ds : List β) :
    rcv t ((d :: ds).map (Msg.mk t)) = some (⟨t, d⟩, ds.map (Msg.mk t)) := by
  rw [List.map_cons, rcv, if_pos rfl]

-- ---------------------------------------------------------------------------
-- Counting by type
-- ---------------------------------------------------------------------------

/-- The queue holds one message for each message of one of its types. -/
theorem length_eq_sum [Fintype ι] {f : ι → Int} (hf : Function.Injective f)
    (hall : ∀ m ∈ q, ∃ i, m.type = f i) : q.length = ∑ i, (ofType (f i) q).length := by
  classical
  induction q with
  | nil => simp
  | cons m q ih =>
    obtain ⟨i, hi⟩ := hall m List.mem_cons_self
    have hcons (j : ι) : (ofType (f j) (m :: q)).length =
        (ofType (f j) q).length + if j = i then 1 else 0 := by
      by_cases hj : j = i
      · rw [hj, ← hi, ofType_cons_self, List.length_cons, if_pos rfl]
      · have hne : m.type ≠ f j := fun h => hj (hf (h.symm.trans hi))
        rw [ofType_cons_of_ne hne, if_neg hj, Nat.add_zero]
    rw [List.length_cons, ih fun m' hm' => hall m' (List.mem_cons_of_mem _ hm')]
    simp only [hcons, Finset.sum_add_distrib, Finset.sum_ite_eq', Finset.mem_univ, if_true]

end DdsAuto.MsgQueue
