import DdsAuto.Interprocess.Cond
import Mathlib.Data.List.Range

/-!
# Each message once

A state is `Fresh` while the log is exactly what was sent, up to the message in
the slot, and `Spoiled` once a message is logged again or lost, or is bound to
be. A step leads from the one to the other exactly where a process comes back
from `wait` and `message_in` is not as it wants it, and nothing leads back.
-/

namespace DdsAuto.Interprocess.Cond

open Lts

/-- 1 while the message sent last has not been logged, if all returns were checked. -/
def State.unread (s : State) : Nat :=
  if s.a = .notify ∨ s.a = .setIn then 1 else if s.b = .clearIn then 0 else s.message_in.toNat

/-- What was sent is logged once each, up to the one in the slot. -/
structure Fresh (s : State) : Prop where
  log : s.log = List.range' 1 s.log.length
  sent : s.sent = s.log.length + s.unread
  sprintf : s.a = .sprintf ∨ s.a = .notify ∨ s.a = .setIn → s.message_in = false
  strcmp : s.b = .strcmp ∨ s.b = .log ∨ s.b = .clearIn → s.message_in = true

/-- A message is logged again or not at all, or soon will be. -/
inductive Spoiled (s : State) : Prop
  | nothing (h : 0 ∈ s.log)
  | again (h : ¬ s.log.Nodup)
  | lost (k : Nat) (hpos : 0 < k) (hk : k < s.sent) (h : k ∉ s.log)
  | logsAgain (hb : s.b = .strcmp ∨ s.b = .log) (h : s.sent = 0 ∨ s.sent ∈ s.log)
  | overwrites (ha : s.a = .sprintf) (hpos : 0 < s.sent) (h : s.sent ∉ s.log)

variable {numMsg : Nat} {s s' : State} {a : Label}

theorem mem_range'_one {k n : Nat} : k ∈ List.range' 1 n ↔ 0 < k ∧ k ≤ n := by
  rw [List.mem_range'_1]
  omega

/-- While B reads the slot the message in it is the one not logged yet. -/
theorem Fresh.sent_reading (h : Fresh s) (hp : Points numMsg s) (hb : s.b = .strcmp ∨ s.b = .log) :
    s.sent = s.log.length + 1 := by
  have hin := h.strcmp (by grind)
  have hinside : s.b.inside = true := by rcases hb with hb | hb <;> rw [hb] <;> rfl
  have ha := hp.mutexA
  rw [hp.mutexB.mpr hinside] at ha
  have hsent := h.sent
  grind [State.unread, PcA.inside]

/-- While A writes the slot nothing is left to be logged. -/
theorem Fresh.sent_writing (h : Fresh s) (hp : Points numMsg s) (ha : s.a = .sprintf) :
    s.sent = s.log.length := by
  have hin := h.sprintf (.inl ha)
  have hsent := h.sent
  have hb := hp.mutexB
  rw [hp.mutexA.mpr (by rw [ha]; rfl)] at hb
  grind [State.unread, PcB.inside]

theorem Fresh.not_spoiled (h : Fresh s) (hp : Points numMsg s) : ¬ Spoiled s := by
  have hmem (k : Nat) : k ∈ s.log ↔ 0 < k ∧ k ≤ s.log.length := by
    rw [h.log, List.length_range']
    exact mem_range'_one
  rintro (hzero | hagain | ⟨k, hpos, hk, hlost⟩ | ⟨hb, hsent⟩ | ⟨ha, hpos, hsent⟩)
  · exact Nat.lt_irrefl 0 ((hmem 0).mp hzero).1
  · rw [h.log] at hagain
    exact hagain List.nodup_range'
  · refine hlost ((hmem k).mpr ⟨hpos, ?_⟩)
    have hsent := h.sent
    have hunread : s.unread ≤ 1 := by
      have hle := Bool.toNat_le s.message_in
      grind [State.unread]
    omega
  · rw [hmem, h.sent_reading hp hb] at hsent
    omega
  · rw [hmem, h.sent_writing hp ha] at hsent
    rw [h.sent_writing hp ha] at hpos
    omega

theorem fresh_stepA (h : Fresh s) (hp : Points numMsg s)
    (hcheck : s.a = .woken → s.message_in = false)
    (hstep : stepA numMsg s = some s') : Fresh s' := by
  have hlog : s'.log = s.log := congrArg (List.map number) (received_stepA hstep)
  obtain ⟨hrange, hsent, hsprintf, hstrcmp⟩ := h
  have hout := hp.outside
  cases ha : s.a <;> simp only [stepA, ha] at hstep <;> constructor <;>
    grind [State.unread, State.sent, PcA.inside, PcB.inside]

theorem fresh_stepB (h : Fresh s) (hp : Points numMsg s) (hcheck : s.b = .woken → s.message_in = true)
    (hstep : stepB s = some s') : Fresh s' := by
  have hreading := h.sent_reading hp
  have hlogs := log_append hp
  have hmutex := hp.mutexA
  have hmutexB := hp.mutexB
  obtain ⟨hrange, hsent, hsprintf, hstrcmp⟩ := h
  by_cases hb : s.b = .log
  · rw [stepB, hb] at hstep
    cases hstep
    have hlog : State.log { s with received := s.received ++ [s.items], b := .clearIn } =
        s.log ++ [s.sent] := hlogs hb
    refine ⟨?_, ?_, hsprintf, fun _ => hstrcmp (.inr (.inl hb))⟩
    · rw [hlog, hreading (.inr hb), List.length_append, List.length_singleton,
        List.range'_1_concat, ← hrange, Nat.add_comm 1]
    · have hunread :
          State.unread { s with received := s.received ++ [s.items], b := .clearIn } = 0 := by
        rw [hmutexB.mpr (by rw [hb]; rfl)] at hmutex
        grind [State.unread, PcA.inside]
      rw [hlog, hunread, List.length_append, List.length_singleton, ← hreading (.inr hb)]
      rfl
  · have hlog : s'.log = s.log := congrArg (List.map number) (received_stepB hstep hb)
    have hsame := sent_stepB hstep
    cases hpc : s.b <;> simp only [stepB, hpc] at hstep <;> constructor <;>
      grind [State.unread, PcA.inside, PcB.inside]

/-- A return that is not checked spoils the state. -/
theorem spoiled_stepA (h : Fresh s) (hp : Points numMsg s) (ha : s.a = .woken)
    (hin : s.message_in = true) (hstep : stepA numMsg s = some s') : Spoiled s' := by
  simp only [stepA, ha, Option.ite_none_right_eq_some, Option.some.injEq] at hstep
  obtain ⟨hfree, rfl⟩ := hstep
  have hb := hp.mutexB
  have hsent := h.sent
  rw [hfree] at hb
  have hone : s.sent = s.log.length + 1 := by grind [State.unread, PcB.inside]
  have hsame : State.sent { s with mutex := some .a, a := .sprintf } = s.sent := by
    simp [State.sent, ha]
  refine .overwrites rfl ?_ ?_ <;> rw [hsame, hone]
  · exact Nat.succ_pos _
  · show s.log.length + 1 ∉ s.log
    rw [h.log, mem_range'_one, List.length_range']
    omega

theorem spoiled_stepB (h : Fresh s) (hp : Points numMsg s) (hb : s.b = .woken)
    (hin : s.message_in = false) (hstep : stepB s = some s') : Spoiled s' := by
  simp only [stepB, hb, Option.ite_none_right_eq_some, Option.some.injEq] at hstep
  obtain ⟨hfree, rfl⟩ := hstep
  have ha := hp.mutexA
  have hsent := h.sent
  rw [hfree] at ha
  have hzero : s.sent = s.log.length := by grind [State.unread, PcA.inside]
  refine .logsAgain (.inl rfl) ?_
  show s.sent = 0 ∨ s.sent ∈ s.log
  rw [hzero, h.log, mem_range'_one, List.length_range']
  omega

theorem stepA_eq_none (hp : Points numMsg s) (hb : s.b.inside = true) : stepA numMsg s = none := by
  have hmutex := hp.mutexB.mpr hb
  have ha := hp.mutexA
  cases hpc : s.a <;> grind [stepA, PcA.inside]

theorem stepB_eq_none (hp : Points numMsg s) (ha : s.a.inside = true) : stepB s = none := by
  have hmutex := hp.mutexA.mpr ha
  have hb := hp.mutexB
  cases hpc : s.b <;> grind [stepB, PcB.inside]

/-- Nothing mends the log. -/
theorem Spoiled.stepA (h : Spoiled s) (hp : Points numMsg s) (hstep : stepA numMsg s = some s') :
    Spoiled s' := by
  have hlog : s'.log = s.log := congrArg (List.map number) (received_stepA hstep)
  have hsent := sent_stepA hstep
  rcases h with hzero | hagain | ⟨k, hpos, hk, hlost⟩ | ⟨hb, -⟩ | ⟨ha, hpos, hlost⟩
  · exact .nothing (hlog ▸ hzero)
  · exact .again (hlog ▸ hagain)
  · exact .lost k hpos (Nat.lt_of_lt_of_le hk hsent) (hlog ▸ hlost)
  · have hinside : s.b.inside = true := by rcases hb with hb | hb <;> rw [hb] <;> rfl
    rw [stepA_eq_none hp hinside] at hstep
    cases hstep
  · rw [Cond.stepA, ha] at hstep
    cases hstep
    refine .lost s.sent hpos ?_ hlost
    simp [State.sent, ha]

theorem Spoiled.log (h : Spoiled s) (hp : Points numMsg s) (hb : s.b = .log) :
    Spoiled { s with received := s.received ++ [s.items], b := .clearIn } := by
  have hlog : State.log { s with received := s.received ++ [s.items], b := .clearIn } =
      s.log ++ [s.sent] := log_append hp hb
  rcases h with hzero | hagain | ⟨k, hpos, hk, hlost⟩ | ⟨-, hagain⟩ | ⟨ha, -, -⟩
  · exact .nothing (by rw [hlog]; exact List.mem_append_left _ hzero)
  · refine .again fun hnodup => hagain ?_
    rw [hlog] at hnodup
    exact (List.nodup_append.mp hnodup).1
  · refine .lost k hpos hk ?_
    rw [hlog, List.mem_append, List.mem_singleton]
    rintro (hk' | rfl)
    · exact hlost hk'
    · exact Nat.lt_irrefl _ hk
  · rcases hagain with hzero | hagain
    · exact .nothing (by rw [hlog, hzero]; simp)
    · refine .again fun hnodup => ?_
      rw [hlog, List.nodup_append] at hnodup
      exact hnodup.2.2 s.sent hagain s.sent (List.mem_singleton_self _) rfl
  · have hinside := hp.outside (by rw [ha]; rfl)
    rw [hb] at hinside
    cases hinside

theorem Spoiled.stepB (hpos : 0 < numMsg) (h : Spoiled s) (hp : Points numMsg s)
    (hl : Logged numMsg s) (hstep : stepB s = some s') : Spoiled s' := by
  by_cases hb : s.b = .log
  · rw [Cond.stepB, hb] at hstep
    cases hstep
    exact h.log hp hb
  · have hlog : s'.log = s.log := congrArg (List.map number) (received_stepB hstep hb)
    have hsent := sent_stepB hstep
    rcases h with hzero | hagain | ⟨k, hk0, hk, hlost⟩ | ⟨hread, hagain⟩ | ⟨ha, hk0, hlost⟩
    · exact .nothing (hlog ▸ hzero)
    · exact .again (hlog ▸ hagain)
    · exact .lost k hk0 (hsent ▸ hk) (hlog ▸ hlost)
    · have hstrcmp := hread.resolve_right hb
      rw [Cond.stepB, hstrcmp] at hstep
      cases hstep
      refine .logsAgain (.inr (if_neg fun hlast => ?_)) hagain
      -- the last message is not in the log
      have hend := hp.exited ((hp.strcmp hpos hstrcmp).1 hlast)
      rw [hp.sent_eq (by rw [hstrcmp]; rfl), hend] at hagain
      rcases hagain with hzero | hin
      · exact Nat.ne_of_gt hpos hzero
      · exact Nat.lt_irrefl _ (hl.lt _ hin)
    · rw [stepB_eq_none hp (by rw [ha]; rfl)] at hstep
      cases hstep

/-- A spurious return changes neither. -/
theorem fresh_spurious (h : Fresh s) : (s.a = .asleep → Fresh { s with a := .woken }) ∧
    (s.b = .asleep → Fresh { s with b := .woken }) := by
  obtain ⟨hrange, hsent, hsprintf, hstrcmp⟩ := h
  refine ⟨fun ha => ⟨hrange, ?_, ?_, hstrcmp⟩, fun hb => ⟨hrange, ?_, hsprintf, ?_⟩⟩
  · simpa [State.sent, State.unread, State.log, ha] using hsent
  · simp
  · simpa [State.sent, State.unread, State.log, hb] using hsent
  · simp

theorem spoiled_spurious (h : Spoiled s) : (s.a = .asleep → Spoiled { s with a := .woken }) ∧
    (s.b = .asleep → Spoiled { s with b := .woken }) := by
  refine ⟨fun ha => ?_, fun hb => ?_⟩
  · have hsame : State.sent { s with a := .woken } = s.sent := by simp [State.sent, ha]
    rcases h with hzero | hagain | ⟨k, hpos, hk, hlost⟩ | ⟨hb, hsent⟩ | ⟨hw, -, -⟩
    · exact .nothing hzero
    · exact .again hagain
    · exact .lost k hpos (hsame ▸ hk) hlost
    · exact .logsAgain hb (by rw [hsame]; exact hsent)
    · rw [ha] at hw
      cases hw
  · rcases h with hzero | hagain | ⟨k, hpos, hk, hlost⟩ | ⟨hread, -⟩ | ⟨ha, hpos, hlost⟩
    · exact .nothing hzero
    · exact .again hagain
    · exact .lost k hpos hk hlost
    · simp [hb] at hread
    · exact .overwrites ha hpos hlost

structure Inv (numMsg : Nat) (s : State) : Prop where
  points : Points numMsg s
  logged : Logged numMsg s
  once : Fresh s ∨ Spoiled s

theorem fresh_init (hpos : 0 < numMsg) : Fresh (system numMsg).init := by
  constructor <;> simp [system, State.log, State.sent, State.unread, hpos]

theorem inv_init (hpos : 0 < numMsg) : Inv numMsg (system numMsg).init where
  points := by constructor <;> simp [system, PcA.inside, PcB.inside, State.sent, hpos]
  logged := by constructor <;> simp [system, State.log]
  once := .inl (fresh_init hpos)

/-- A run is spoiled by the first return that is not checked, and not mended. -/
theorem inv_step (hpos : 0 < numMsg) (h : Inv numMsg s) (hstep : step numMsg s a = some s') :
    Inv numMsg s' ∧ (Spoiled s' ↔ Spoiled s ∨ checked s a = false) := by
  obtain ⟨hp, hl, honce⟩ := h
  have hfresh (hp' : Points numMsg s') (hf : Fresh s) (hf' : Fresh s') (hcheck : checked s a = true) :
      Spoiled s' ↔ Spoiled s ∨ checked s a = false := by
    simp [hf'.not_spoiled hp', hf.not_spoiled hp, hcheck]
  cases a with
  | runA =>
    have hp' := points_stepA hp hstep
    have hl' := hl.keep (received_stepA hstep) (sent_stepA hstep)
    rcases honce with hf | hs
    · by_cases hw : s.a = .woken ∧ s.message_in = true
      · have hs' := spoiled_stepA hf hp hw.1 hw.2 hstep
        exact ⟨⟨hp', hl', .inr hs'⟩, iff_of_true hs' (.inr (by simp [checked, hw.1, hw.2]))⟩
      · have hf' := fresh_stepA hf hp (fun ha => by simpa [ha] using hw) hstep
        exact ⟨⟨hp', hl', .inl hf'⟩,
          hfresh hp' hf hf' (by simpa [checked, or_iff_not_imp_left] using hw)⟩
    · exact ⟨⟨hp', hl', .inr (hs.stepA hp hstep)⟩, iff_of_true (hs.stepA hp hstep) (.inl hs)⟩
  | runB =>
    have hp' := points_stepB hpos hp hstep
    have hl' := logged_stepB hl hp hstep
    rcases honce with hf | hs
    · by_cases hw : s.b = .woken ∧ s.message_in = false
      · have hs' := spoiled_stepB hf hp hw.1 hw.2 hstep
        exact ⟨⟨hp', hl', .inr hs'⟩, iff_of_true hs' (.inr (by simp [checked, hw.1, hw.2]))⟩
      · have hf' := fresh_stepB hf hp (fun hb => by simpa [hb] using hw) hstep
        exact ⟨⟨hp', hl', .inl hf'⟩,
          hfresh hp' hf hf' (by simpa [checked, or_iff_not_imp_left] using hw)⟩
    · have hs' := hs.stepB hpos hp hl hstep
      exact ⟨⟨hp', hl', .inr hs'⟩, iff_of_true hs' (.inl hs)⟩
  | spuriousA =>
    simp only [step, Option.ite_none_right_eq_some, Option.some.injEq] at hstep
    obtain ⟨ha, rfl⟩ := hstep
    have hp' := (points_spurious hp).1 ha
    have hl' : Logged numMsg { s with a := .woken } := hl.keep rfl (by simp [State.sent, ha])
    rcases honce with hf | hs
    · have hf' := (fresh_spurious hf).1 ha
      exact ⟨⟨hp', hl', .inl hf'⟩, hfresh hp' hf hf' rfl⟩
    · have hs' := (spoiled_spurious hs).1 ha
      exact ⟨⟨hp', hl', .inr hs'⟩, iff_of_true hs' (.inl hs)⟩
  | spuriousB =>
    simp only [step, Option.ite_none_right_eq_some, Option.some.injEq] at hstep
    obtain ⟨hb, rfl⟩ := hstep
    have hp' := (points_spurious hp).2 hb
    have hl' : Logged numMsg { s with b := .woken } := hl.keep rfl (Nat.le_refl _)
    rcases honce with hf | hs
    · have hf' := (fresh_spurious hf).2 hb
      exact ⟨⟨hp', hl', .inl hf'⟩, hfresh hp' hf hf' rfl⟩
    · have hs' := (spoiled_spurious hs).2 hb
      exact ⟨⟨hp', hl', .inr hs'⟩, iff_of_true hs' (.inl hs)⟩

-- ---------------------------------------------------------------------------
-- Runs without a spurious return
-- ---------------------------------------------------------------------------

/-- A process is woken by the other one when `message_in` is as it wants it, or about to be. -/
structure Heard (s : State) : Prop where
  wokenA : s.a = .woken → s.message_in = false
  wokenB : s.b = .woken → s.a = .setIn ∨ s.message_in = true

theorem heard_stepA (h : Heard s) (hstep : stepA numMsg s = some s') :
    Heard s' ∧ (s.a = .woken → s.message_in = false) := by
  refine ⟨?_, h.wokenA⟩
  obtain ⟨ha, hb⟩ := h
  cases hpc : s.a <;> simp only [stepA, hpc] at hstep <;> constructor <;> grind

theorem heard_stepB (h : Heard s) (hp : Points numMsg s) (hstep : stepB s = some s') :
    Heard s' ∧ (s.b = .woken → s.message_in = true) := by
  have hmutex := hp.mutexA
  have hcleared := hp.cleared
  obtain ⟨ha, hb⟩ := h
  refine ⟨?_, fun hw => ?_⟩
  · cases hpc : s.b <;> simp only [stepB, hpc] at hstep <;> constructor <;> grind
  · grind [stepB, PcA.inside]

def Label.spurious : Label → Bool
  | .spuriousA | .spuriousB => true
  | _ => false

theorem heard_step (h : Heard s) (hp : Points numMsg s) (hstep : step numMsg s a = some s')
    (ha : a.spurious = false) : Heard s' ∧ checked s a = true := by
  cases a with
  | runA =>
    obtain ⟨hs, hcheck⟩ := heard_stepA h hstep
    exact ⟨hs, by simpa [checked, or_iff_not_imp_left] using hcheck⟩
  | runB =>
    obtain ⟨hs, hcheck⟩ := heard_stepB h hp hstep
    exact ⟨hs, by simpa [checked, or_iff_not_imp_left] using hcheck⟩
  | spuriousA => cases ha
  | spuriousB => cases ha

/-- Without a spurious return all returns are checked. -/
theorem execIf_of_not_spurious (hpos : 0 < numMsg) (h : Inv numMsg s) (hh : Heard s)
    (hrun : (system numMsg).exec s as = some s') (has : ∀ a ∈ as, a.spurious = false) :
    (system numMsg).execIf checked s as = some s' := by
  induction as generalizing s with
  | nil => exact hrun
  | cons a as ih =>
    simp only [Lts.exec, Option.bind_eq_some_iff] at hrun
    obtain ⟨t, hstep, hrest⟩ := hrun
    obtain ⟨hheard, hcheck⟩ := heard_step hh h.points hstep (has a List.mem_cons_self)
    rw [Lts.execIf, if_pos hcheck, hstep, Option.bind_some]
    exact ih (inv_step hpos h hstep).1 hheard hrest fun b hb => has b (List.mem_cons_of_mem _ hb)

-- ---------------------------------------------------------------------------
-- Both come to their ends
-- ---------------------------------------------------------------------------

theorem exited_of_stuck (hp : Points numMsg s) (ha : stepA numMsg s = none) (hb : stepB s = none) :
    s.a = .exited ∧ s.b = .exited := by
  have hfree : s.mutex = none := by
    cases hm : s.mutex with
    | none => rfl
    | some p =>
      cases p with
      | a =>
        have hin := hp.mutexA.mp hm
        cases hpc : s.a <;> grind [stepA, PcA.inside]
      | b =>
        have hin := hp.mutexB.mp hm
        cases hpc : s.b <;> grind [stepB, PcB.inside]
  have ha' : s.a = .asleep ∨ s.a = .exited := by
    cases hpc : s.a <;> grind [stepA]
  have hb' : s.b = .asleep ∨ s.b = .exited := by
    cases hpc : s.b <;> grind [stepB]
  have hsleepA := hp.asleepA
  have hsleepB := hp.asleepB
  have hended := hp.ended
  have hlast := hp.lastIn
  grind

/-- What A has spent of the 15 steps of a pass; 8 of them are for what B does about the message. -/
def PcA.spent : PcA → Nat
  | .lock | .exited => 0
  | .test => 1
  | .asleep | .woken => 2
  | .sprintf => 3
  | .notify => 4
  | .setIn => 13
  | .unlock => 14

/-- The steps B can go without another message; `there` is one it has not come to. -/
def PcB.left (there : Bool) : PcB → Nat
  | .lock => 2 + 7 * there.toNat
  | .test => 1 + 7 * there.toNat
  | .asleep => 0
  | .woken => 8
  | .strcmp => 7
  | .log => 6
  | .clearIn => 5
  | .notify => 4
  | .unlock => 3
  | .unlockEnd => 1
  | .exited => 0

def State.left (numMsg : Nat) (s : State) : Nat :=
  15 * (numMsg - s.i) - s.a.spent + s.b.left (s.message_in || s.a = .setIn)

/-- What a spurious return costs, itself included. -/
def credit : Label → Nat
  | .spuriousA => 1
  | .spuriousB => 9
  | _ => 0

/-- Another message is worth 8 steps to B at most. -/
theorem left_notified (b : PcB) (there : Bool) :
    (if b = .asleep then PcB.woken else b).left true ≤ 8 + b.left there := by
  cases b <;> cases there <;> decide

theorem left_stepA (hp : Points numMsg s) (hstep : stepA numMsg s = some s') :
    s'.left numMsg < s.left numMsg := by
  have hloop := hp.loop
  cases ha : s.a <;> simp only [stepA, ha] at hstep
  case notify =>
    cases hstep
    have hle := left_notified s.b s.message_in
    have hi := hloop (by rw [ha]; simp)
    simp only [State.left, ha, PcA.spent, decide_true, Bool.or_true, reduceCtorEq, decide_false,
      Bool.or_false]
    omega
  case unlock =>
    cases hstep
    have hi := hloop (by rw [ha]; simp)
    by_cases hnext : s.i + 1 < numMsg
    · simp [State.left, ha, PcA.spent, hnext]
      omega
    · simp [State.left, ha, PcA.spent, hnext]
      omega
  all_goals grind [State.left, PcA.spent]

theorem left_stepB (hp : Points numMsg s) (hstep : stepB s = some s') :
    s'.left numMsg < s.left numMsg := by
  have hset (h : s.mutex ≠ some .a) : decide (s.a = .setIn) = false := by
    have ha := hp.mutexA
    grind [PcA.inside]
  have hinside (h : s.b.inside = true) : decide (s.a = .setIn) = false :=
    hset (by rw [hp.mutexB.mpr h]; simp)
  have hcleared := hp.cleared
  cases hb : s.b <;> simp only [stepB, hb] at hstep
  case lock =>
    simp only [Option.ite_none_right_eq_some, Option.some.injEq] at hstep
    obtain ⟨hfree, rfl⟩ := hstep
    simp [State.left, hb, PcB.left]
  case test =>
    have hno := hinside (by rw [hb]; rfl)
    cases hin : s.message_in <;> simp only [hin] at hstep <;> cases hstep <;>
      simp [State.left, hb, PcB.left, hno, hin]
  case asleep => cases hstep
  case exited => cases hstep
  case woken =>
    simp only [Option.ite_none_right_eq_some, Option.some.injEq] at hstep
    obtain ⟨hfree, rfl⟩ := hstep
    simp [State.left, hb, PcB.left]
  case strcmp =>
    cases hstep
    by_cases hlast : s.items = lastMessage <;> simp [State.left, hb, PcB.left, hlast]
  case notify =>
    cases hstep
    by_cases ha : s.a = .asleep <;> simp [State.left, hb, PcB.left, PcA.spent, ha]
  case unlock =>
    cases hstep
    have hno := hinside (by rw [hb]; rfl)
    simp [State.left, hb, PcB.left, hno, hcleared (.inr hb)]
  all_goals
    cases hstep
    simp [State.left, hb, PcB.left]

theorem left_step (hp : Points numMsg s) (hstep : step numMsg s a = some s') :
    s'.left numMsg < s.left numMsg + credit a := by
  cases a with
  | runA => exact left_stepA hp hstep
  | runB => exact left_stepB hp hstep
  | spuriousA =>
    simp only [step, Option.ite_none_right_eq_some, Option.some.injEq] at hstep
    obtain ⟨ha, rfl⟩ := hstep
    simp [State.left, ha, PcA.spent, credit]
  | spuriousB =>
    simp only [step, Option.ite_none_right_eq_some, Option.some.injEq] at hstep
    obtain ⟨hb, rfl⟩ := hstep
    simp [State.left, hb, PcB.left, credit]

-- ---------------------------------------------------------------------------
-- Whole runs
-- ---------------------------------------------------------------------------

theorem credits_credit (as : List Label) :
    credits credit as = as.count .spuriousA + 9 * as.count .spuriousB := by
  have hcredit : credit = fun a =>
      (if a == .spuriousA then 1 else 0) + if a == .spuriousB then 9 else 0 := by
    funext a
    cases a <;> rfl
  rw [hcredit, credits_add, credits_of_ite fun _ => rfl, credits_of_ite fun _ => rfl, Nat.one_mul,
    List.count, List.count]

theorem length_run (hpos : 0 < numMsg)
    (hrun : (system numMsg).exec (system numMsg).init as = some s) :
    as.length ≤ 15 * numMsg + 2 + as.count .spuriousA + 9 * as.count .spuriousB := by
  have hle := length_le_of_credit (L := system numMsg) (P := Inv numMsg) (μ := State.left numMsg)
    credit
    (fun _ _ _ h hstep => left_step h.points hstep) (fun _ _ _ h hstep => (inv_step hpos h hstep).1)
    (inv_init hpos) hrun
  have hinit : (system numMsg).init.left numMsg = 15 * numMsg + 2 := by
    simp [State.left, system, hpos, PcA.spent, PcB.left]
  rw [hinit, credits_credit] at hle
  omega

/-- Where both have ended, all was logged once exactly if nothing is spoiled. -/
theorem received_iff (h : Inv numMsg s) (ha : s.a = .exited) (hb : s.b = .exited) :
    s.received = (List.range (numMsg - 1)).map (message numMsg) ↔ ¬ Spoiled s := by
  have hsent : s.sent = numMsg := by simp [State.sent, ha, h.points.exited ha]
  have hall : s.received = (List.range (numMsg - 1)).map (message numMsg) ↔
      s.log = List.range' 1 (numMsg - 1) := by
    refine ⟨fun hreceived => ?_, fun hlog => ?_⟩
    · rw [State.log, hreceived, List.map_map, List.range'_eq_map_range]
      refine List.map_congr_left fun i hi => ?_
      rw [Function.comp_apply, number_message (List.mem_range.mp hi), Nat.add_comm]
    · rw [h.logged.received, hlog, List.range'_eq_map_range, List.map_map]
      refine List.map_congr_left fun i _ => ?_
      rw [Function.comp_apply, Nat.add_comm]
      rfl
  rw [hall]
  refine ⟨fun hlog => ?_, fun hno => ?_⟩
  · rintro (hzero | hagain | ⟨k, hpos, hk, hlost⟩ | ⟨hread, -⟩ | ⟨hw, -, -⟩)
    · rw [hlog, mem_range'_one] at hzero
      exact Nat.lt_irrefl 0 hzero.1
    · rw [hlog] at hagain
      exact hagain List.nodup_range'
    · rw [hlog, mem_range'_one] at hlost
      omega
    · simp [hb] at hread
    · rw [ha] at hw
      cases hw
  · have hf := h.once.resolve_right hno
    have hunread : s.unread = 1 := by
      simp [State.unread, ha, hb, h.points.lastIn (.inr ha)]
    have hlen : s.log.length = numMsg - 1 := by
      have := hf.sent
      omega
    rw [← hlen]
    exact hf.log

end DdsAuto.Interprocess.Cond
