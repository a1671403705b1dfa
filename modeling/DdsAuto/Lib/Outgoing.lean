/-!
# Messages on their way out

A writer sends messages one after the other over a wire that carries bytes.
`que` holds the messages that are not through yet, the first of them in
progress. Whatever a writer's own bookkeeping looks like, it is right when each
of its steps is one of `push`, `send` and `pop`.
-/

namespace DdsAuto

variable {α : Type} {all que rest : List (List α)} {m m' : List α} {sent n : Nat}
variable {wire : List α}

/-- Of the messages `all`, the wire has carried those before `que` and the first
`sent` symbols of the head of `que`. -/
structure Outgoing (all que : List (List α)) (sent : Nat) (wire : List α) : Prop where
  carried : ∃ through, all = through ++ que ∧ wire = through.flatten ++ (que.headD []).take sent
  sent_le : sent ≤ (que.headD []).length

namespace Outgoing

theorem init : Outgoing ([] : List (List α)) [] 0 [] := ⟨⟨[], rfl, rfl⟩, Nat.zero_le _⟩

theorem push (h : Outgoing all que sent wire) (m : List α) :
    Outgoing (all ++ [m]) (que ++ [m]) sent wire := by
  obtain ⟨⟨through, rfl, rfl⟩, hle⟩ := h
  cases que with
  | nil =>
    have hzero : sent = 0 := Nat.le_zero.mp hle
    subst hzero
    exact ⟨⟨through, by simp, by simp⟩, Nat.zero_le _⟩
  | cons m' que => exact ⟨⟨through, by simp, rfl⟩, hle⟩

theorem send (h : Outgoing all (m :: rest) sent wire) (hn : sent + n ≤ m.length) :
    Outgoing all (m :: rest) (sent + n) (wire ++ (m.drop sent).take n) := by
  obtain ⟨⟨through, rfl, rfl⟩, -⟩ := h
  refine ⟨⟨through, rfl, ?_⟩, hn⟩
  rw [List.append_assoc, List.headD_cons, List.take_add]

theorem pop (h : Outgoing all (m :: rest) m.length wire) : Outgoing all rest 0 wire := by
  obtain ⟨⟨through, rfl, rfl⟩, -⟩ := h
  exact ⟨⟨through ++ [m], by simp, by simp⟩, Nat.zero_le _⟩

/-- The wire carries nothing else, and in order. -/
theorem prefix_flatten (h : Outgoing all que sent wire) : wire <+: all.flatten := by
  obtain ⟨⟨through, rfl, rfl⟩, -⟩ := h
  rw [List.flatten_append]
  refine (List.prefix_append_right_inj _).mpr ?_
  cases que with
  | nil => simp
  | cons m que =>
    rw [List.headD_cons, List.flatten_cons]
    exact (List.take_prefix _ _).trans (List.prefix_append _ _)

theorem eq_flatten (h : Outgoing all [] sent wire) : wire = all.flatten := by
  obtain ⟨⟨through, rfl, rfl⟩, -⟩ := h
  simp

/-- A message sent as a whole: `push` with nothing in the queue, and then `send`. -/
theorem sendAll (h : Outgoing all (m :: rest) 0 wire) :
    Outgoing all (m :: rest) m.length (wire ++ m) := by
  have hall := h.send (show 0 + m.length ≤ m.length by omega)
  rwa [Nat.zero_add, List.drop_zero, List.take_length] at hall

end Outgoing

end DdsAuto
