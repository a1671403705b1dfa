/-!
# Frame decoding one symbol at a time

A frame is a header of fixed length and a body whose length the header
announces. `Format.run` decodes a stream symbol by symbol, so it does not
depend on how the stream is cut (`run_append`); a reader that takes whole
chunks is right when each chunk has the effect of `run` on it.
-/

namespace DdsAuto.Framing

/-- What a complete header says: a body of `len` symbols follows, or decoding
stops for a reason. -/
inductive Verdict (τ ρ : Type)
  | body (tag : τ) (len : Nat)
  | stop (reason : ρ)

structure Format (α τ ρ : Type) where
  headLen : Nat
  headLen_pos : 0 < headLen
  verdict : List α → Verdict τ ρ

/-- `head` and `body` carry what has arrived of the current header or body. -/
inductive State (α τ ρ : Type)
  | head (got : List α)
  | body (tag : τ) (len : Nat) (got : List α)
  | stopped (reason : ρ)

/-- More of the stream can change the state. -/
def State.Live : State α τ ρ → Prop
  | .stopped _ => False
  | _ => True

/-- The body in progress, if any, is at most `n` symbols long. -/
def State.Within (n : Nat) : State α τ ρ → Prop
  | .body _ len got => got.length < len ∧ len ≤ n
  | _ => True

@[simp] theorem State.live_head : (State.head got : State α τ ρ).Live := trivial
@[simp] theorem State.live_body : (State.body tag len got : State α τ ρ).Live := trivial
@[simp] theorem State.not_live_stopped : ¬ (State.stopped r : State α τ ρ).Live := id

namespace Format

variable {α τ ρ : Type} {F : Format α τ ρ} {s : State α τ ρ}

/-- The state after a complete header; an empty body is complete at once. -/
def accept (F : Format α τ ρ) (hd : List α) : State α τ ρ × List (τ × List α) :=
  match F.verdict hd with
  | .stop reason => (.stopped reason, [])
  | .body tag 0 => (.head [], [(tag, [])])
  | .body tag (len + 1) => (.body tag (len + 1) [], [])

def step (F : Format α τ ρ) : State α τ ρ → α → State α τ ρ × List (τ × List α)
  | .head got, a =>
    if got.length + 1 < F.headLen then (.head (got ++ [a]), []) else F.accept (got ++ [a])
  | .body tag len got, a =>
    if got.length + 1 < len then (.body tag len (got ++ [a]), [])
    else (.head [], [(tag, got ++ [a])])
  | .stopped reason, _ => (.stopped reason, [])

/-- The state after the symbols, and the frames completed on the way. -/
def run (F : Format α τ ρ) : State α τ ρ → List α → State α τ ρ × List (τ × List α)
  | s, [] => (s, [])
  | s, a :: as => ((run F (F.step s a).1 as).1, (F.step s a).2 ++ (run F (F.step s a).1 as).2)

@[simp] theorem run_nil : F.run s [] = (s, []) := rfl

theorem run_cons : F.run s (a :: as) =
    ((F.run (F.step s a).1 as).1, (F.step s a).2 ++ (F.run (F.step s a).1 as).2) := rfl

theorem run_append (s : State α τ ρ) (as bs : List α) : F.run s (as ++ bs) =
    ((F.run (F.run s as).1 bs).1, (F.run s as).2 ++ (F.run (F.run s as).1 bs).2) := by
  induction as generalizing s with
  | nil => simp
  | cons a as ih => simp [run_cons, ih, List.append_assoc]

@[simp] theorem run_stopped (as : List α) : F.run (.stopped r) as = (.stopped r, []) := by
  induction as with
  | nil => rfl
  | cons a as ih => simp [run_cons, step, ih]

theorem live_of_run_append {as bs : List α} (h : (F.run s (as ++ bs)).1.Live) :
    (F.run s as).1.Live := by
  rw [run_append] at h
  cases hs : (F.run s as).1 with
  | stopped r => simp [hs] at h
  | head => trivial
  | body => trivial

theorem stopped_of_run {as : List α} (h : (F.run s as).1 = .stopped r) (bs : List α) :
    F.run s (as ++ bs) = (.stopped r, (F.run s as).2) := by
  rw [run_append, h]
  simp

-- ---------------------------------------------------------------------------
-- Several symbols at once
-- ---------------------------------------------------------------------------

theorem run_head_short (got as : List α) (h : got.length + as.length < F.headLen) :
    F.run (.head got) as = (.head (got ++ as), []) := by
  induction as generalizing got with
  | nil => simp
  | cons a as ih =>
    simp only [List.length_cons] at h
    have hstep : F.step (.head got) a = (.head (got ++ [a]), []) := by
      simp [step, show got.length + 1 < F.headLen by omega]
    simp [run_cons, hstep, ih (got ++ [a]) (by simp; omega)]

theorem run_head_full (got as : List α) (hg : got.length < F.headLen)
    (h : got.length + as.length = F.headLen) :
    F.run (.head got) as = F.accept (got ++ as) := by
  obtain ⟨init, last, rfl⟩ : ∃ init last, as = init ++ [last] :=
    ⟨_, _, (List.dropLast_concat_getLast (by rintro rfl; simp at h; omega)).symm⟩
  simp only [List.length_append, List.length_singleton] at h
  rw [run_append, run_head_short _ _ (by omega)]
  simp [run_cons, step, show ¬ got.length + init.length + 1 < F.headLen by omega]

theorem run_body_short (tag : τ) (got as : List α) (h : got.length + as.length < len) :
    F.run (.body tag len got) as = (.body tag len (got ++ as), []) := by
  induction as generalizing got with
  | nil => simp
  | cons a as ih =>
    simp only [List.length_cons] at h
    have hstep : F.step (.body tag len got) a = (.body tag len (got ++ [a]), []) := by
      simp [step, show got.length + 1 < len by omega]
    simp [run_cons, hstep, ih (got ++ [a]) (by simp; omega)]

theorem run_body_full (tag : τ) (got as : List α) (hg : got.length < len)
    (h : got.length + as.length = len) :
    F.run (.body tag len got) as = (.head [], [(tag, got ++ as)]) := by
  obtain ⟨init, last, rfl⟩ : ∃ init last, as = init ++ [last] :=
    ⟨_, _, (List.dropLast_concat_getLast (by rintro rfl; simp at h; omega)).symm⟩
  simp only [List.length_append, List.length_singleton] at h
  rw [run_append, run_body_short _ _ _ (by omega)]
  simp [run_cons, step, show ¬ got.length + init.length + 1 < len by omega]

theorem run_head_body (hg : got.length < F.headLen) (h : got.length + hd.length = F.headLen)
    (hv : F.verdict (got ++ hd) = .body tag body.length) :
    F.run (.head got) (hd ++ body) = (.head [], [(tag, body)]) := by
  rw [run_append, run_head_full _ _ hg h]
  cases body with
  | nil => simp [accept, show F.verdict (got ++ hd) = .body tag 0 from hv]
  | cons b bs =>
    simp [accept, show F.verdict (got ++ hd) = .body tag (bs.length + 1) from hv,
      run_body_full (F := F) tag [] (b :: bs)]

/-- A header followed by less than its body. -/
theorem run_head_body_short (hg : got.length < F.headLen)
    (h : got.length + hd.length = F.headLen) (hv : F.verdict (got ++ hd) = .body tag len)
    (hlt : as.length < len) :
    F.run (.head got) (hd ++ as) = (.body tag len as, []) := by
  obtain ⟨n, rfl⟩ : ∃ n, len = n + 1 := ⟨len - 1, by omega⟩
  rw [run_append, run_head_full _ _ hg h]
  simp [accept, hv, run_body_short (F := F) tag [] as (by rwa [List.length_nil, Nat.zero_add])]

theorem run_head_stop (hg : got.length < F.headLen) (h : got.length + hd.length = F.headLen)
    (hv : F.verdict (got ++ hd) = .stop r) (as : List α) :
    F.run (.head got) (hd ++ as) = (.stopped r, []) := by
  rw [run_append, run_head_full _ _ hg h]
  simp [accept, hv]

theorem run_frame (hlen : hd.length = F.headLen) (hv : F.verdict hd = .body tag body.length) :
    F.run (.head []) (hd ++ body) = (.head [], [(tag, body)]) :=
  run_head_body F.headLen_pos (by simpa using hlen) hv

theorem run_frame_short (hlen : hd.length = F.headLen) (hv : F.verdict hd = .body tag len)
    (hlt : as.length < len) : F.run (.head []) (hd ++ as) = (.body tag len as, []) :=
  run_head_body_short F.headLen_pos (by simpa using hlen) hv hlt

theorem run_frame_stop (hlen : hd.length = F.headLen) (hv : F.verdict hd = .stop r)
    (as : List α) : F.run (.head []) (hd ++ as) = (.stopped r, []) := by
  have hpos : ([] : List α).length < F.headLen := F.headLen_pos
  exact run_head_stop hpos (by simpa using hlen) hv as

-- ---------------------------------------------------------------------------
-- Bounded bodies
-- ---------------------------------------------------------------------------

theorem step_within (hv : ∀ hd tag len, F.verdict hd = .body tag len → len ≤ n)
    (hs : s.Within n) (a : α) :
    (F.step s a).1.Within n ∧ ∀ m ∈ (F.step s a).2, m.2.length ≤ n := by
  cases s with
  | head got =>
    simp only [step]
    split
    · exact ⟨trivial, by simp⟩
    · unfold accept
      split
      · exact ⟨trivial, by simp⟩
      · exact ⟨trivial, by simp⟩
      · rename_i hb
        exact ⟨⟨by simp, hv _ _ _ hb⟩, by simp⟩
  | body tag len got =>
    obtain ⟨hlt, hle⟩ := hs
    simp only [step]
    split
    · rename_i hshort
      exact ⟨⟨by simpa using hshort, hle⟩, by simp⟩
    · exact ⟨trivial, by simp; omega⟩
  | stopped reason => exact ⟨trivial, by simp [step]⟩

/-- Every decoded body keeps the bound that the headers keep. -/
theorem run_within (hv : ∀ hd tag len, F.verdict hd = .body tag len → len ≤ n)
    (hs : s.Within n) (as : List α) : ∀ m ∈ (F.run s as).2, m.2.length ≤ n := by
  induction as generalizing s with
  | nil => simp
  | cons a as ih =>
    obtain ⟨hnext, hmsgs⟩ := step_within hv hs a
    intro m hm
    rw [run_cons, List.mem_append] at hm
    exact hm.elim (hmsgs m) (ih hnext m)

-- ---------------------------------------------------------------------------
-- Symbols consumed
-- ---------------------------------------------------------------------------

/-- The symbols of the header and body in progress. -/
def held (F : Format α τ ρ) : State α τ ρ → Nat
  | .head got => got.length
  | .body _ _ got => F.headLen + got.length
  | .stopped _ => 0

/-- The symbols it took to send the frames whole. -/
def spent (F : Format α τ ρ) : List (τ × List α) → Nat
  | [] => 0
  | f :: frames => F.headLen + f.2.length + spent F frames

@[simp] theorem spent_nil : F.spent [] = 0 := rfl

@[simp] theorem spent_cons : F.spent (f :: frames) = F.headLen + f.2.length + F.spent frames := rfl

@[simp] theorem spent_append (frames frames' : List (τ × List α)) :
    F.spent (frames ++ frames') = F.spent frames + F.spent frames' := by
  induction frames with
  | nil => simp
  | cons f frames ih => simp [ih, Nat.add_assoc]

theorem step_spent (s : State α τ ρ) (a : α) :
    F.held (F.step s a).1 + F.spent (F.step s a).2 ≤ F.held s + 1 := by
  cases s with
  | head got =>
    simp only [step]
    split
    · simp [held]
    · unfold accept
      split <;> simp [held] <;> omega
  | body tag len got =>
    simp only [step]
    split <;> simp [held] <;> omega
  | stopped reason => simp [step, held]

/-- No frame comes out of fewer symbols than it has. -/
theorem run_spent (s : State α τ ρ) (as : List α) :
    F.spent (F.run s as).2 ≤ F.held s + as.length := by
  induction as generalizing s with
  | nil => simp
  | cons a as ih =>
    have hstep := step_spent (F := F) s a
    have hrest := ih (F.step s a).1
    rw [run_cons, spent_append, List.length_cons]
    omega

-- ---------------------------------------------------------------------------
-- Encoded frames
-- ---------------------------------------------------------------------------

/-- The stream of a list of frames under the header encoder `enc`. -/
def encode (enc : τ → List α → List α) (frames : List (τ × List α)) : List α :=
  frames.flatMap fun f => enc f.1 f.2 ++ f.2

/-- `enc` writes headers that the format reads back. -/
def Encodes (F : Format α τ ρ) (enc : τ → List α → List α) (f : τ × List α) : Prop :=
  (enc f.1 f.2).length = F.headLen ∧ F.verdict (enc f.1 f.2) = .body f.1 f.2.length

theorem run_encode {enc : τ → List α → List α} {frames : List (τ × List α)}
    (h : ∀ f ∈ frames, F.Encodes enc f) :
    F.run (.head []) (encode enc frames) = (.head [], frames) := by
  induction frames with
  | nil => rfl
  | cons f frames ih =>
    obtain ⟨hlen, hv⟩ := h f (by simp)
    have hf : F.run (.head []) (enc f.1 f.2 ++ f.2) = (.head [], [f]) :=
      run_frame hlen hv
    have hfs := ih fun g hg => h g (by simp [hg])
    simp only [encode, List.flatMap_cons] at hfs ⊢
    rw [run_append, hf, hfs]
    simp

/-- A frame that has not arrived completely gives nothing yet. -/
theorem run_cut {enc : τ → List α → List α} {f : τ × List α} (h : F.Encodes enc f)
    (hcut : part ++ rest = enc f.1 f.2 ++ f.2) (hrest : rest ≠ []) :
    ∃ s, F.run (.head []) part = (s, []) ∧ s.Live := by
  obtain ⟨hlen, hv⟩ := h
  have hpos := List.length_pos_iff.mpr hrest
  have htotal := congrArg List.length hcut
  simp only [List.length_append] at htotal
  by_cases hp : part.length < F.headLen
  · exact ⟨.head part, run_head_short [] part (by simpa using hp), trivial⟩
  · -- the header is in `part`, the rest of `part` is a proper piece of the body
    obtain ⟨got, rfl⟩ : ∃ got, part = enc f.1 f.2 ++ got := by
      refine ⟨part.drop F.headLen, ?_⟩
      have htake := congrArg (List.take F.headLen) hcut
      rw [List.take_append_of_le_length (by omega), List.take_append_of_le_length (by omega),
        List.take_of_length_le (Nat.le_of_eq hlen)] at htake
      rw [← htake, List.take_append_drop]
    simp only [List.length_append] at htotal
    refine ⟨.body f.1 f.2.length got, ?_, trivial⟩
    exact run_frame_short hlen hv (by omega)

-- ---------------------------------------------------------------------------
-- Streams that stop the decoder
-- ---------------------------------------------------------------------------

/-- Complete frames and then a header that stops decoding for reason `r`. -/
inductive Stops (F : Format α τ ρ) (r : ρ) : List α → Prop
  | here : hd.length = F.headLen → F.verdict hd = .stop r → Stops F r (hd ++ rest)
  | later : hd.length = F.headLen → F.verdict hd = .body tag body.length → Stops F r rest →
      Stops F r (hd ++ body ++ rest)

theorem Stops.run (h : F.Stops r as) : (F.run (.head []) as).1 = .stopped r := by
  induction h with
  | here hlen hv => rw [run_frame_stop hlen hv]
  | later hlen hv _ ih =>
    rw [run_append, run_frame hlen hv]
    exact ih

/-- The frame at the front decides: the induction is on how much follows it. -/
theorem stopped_iff : (F.run (.head []) as).1 = .stopped r ↔ F.Stops r as := by
  refine ⟨fun h => ?_, Stops.run⟩
  generalize hn : as.length = n
  induction n using Nat.strongRecOn generalizing as with
  | ind n ih =>
    subst hn
    by_cases hshort : as.length < F.headLen
    · rw [run_head_short [] as (by simpa using hshort)] at h
      cases h
    · obtain ⟨hd, tl, rfl, hlen⟩ : ∃ hd tl, as = hd ++ tl ∧ hd.length = F.headLen :=
        ⟨as.take F.headLen, as.drop F.headLen, (List.take_append_drop ..).symm, by simp; omega⟩
      cases hv : F.verdict hd with
      | stop r' =>
        rw [run_frame_stop hlen hv] at h
        cases h
        exact .here hlen hv
      | body tag len =>
        by_cases hbody : tl.length < len
        · rw [run_frame_short hlen hv hbody] at h
          cases h
        · obtain ⟨body, rest, rfl, rfl⟩ : ∃ body rest, tl = body ++ rest ∧ len = body.length :=
            ⟨tl.take len, tl.drop len, (List.take_append_drop ..).symm, by simp; omega⟩
          have hlt : rest.length < (hd ++ (body ++ rest)).length := by
            have hpos := F.headLen_pos
            simp only [List.length_append]
            omega
          rw [← List.append_assoc, run_append, run_frame hlen hv] at h
          rw [← List.append_assoc]
          exact .later hlen hv (ih rest.length hlt h rfl)

end Format

end DdsAuto.Framing
