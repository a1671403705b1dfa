import DdsAuto.Lib.Refinement
import DdsAuto.Pxmsgque.Mqnotifysig3

/-!
# Receivers that register again and then drain

What `mqnotifysig4`, `mqnotifysig5` and `mqnotifythread1` have in common. The
queue's registration is used up by an announcement; whoever answers it registers
again and only then receives until the queue is empty. `owed` counts the
announcements on their way to that registration, whatever carries them: a
pending signal, a handler, a byte in a pipe, a new thread. `draining` counts the
receivers that have registered and not yet found the queue empty.

`idle`: with nothing owed and nobody draining the queue is empty, unless the
messages in it were there before anybody registered and none was ever read.
-/

namespace DdsAuto.Pxmsgque

open Lts

/-- A queue and its one registration. -/
structure Mq where
  queue : List Message
  registered : Bool
  deriving DecidableEq, Repr

/-- In order of priority, and of arrival within one priority. -/
def Mq.insert (mq : Mq) (m : Message) : List Message :=
  mq.queue.takeWhile (m.prio ≤ ·.prio) ++ m :: mq.queue.dropWhile (m.prio ≤ ·.prio)

/-- The next message is announced. -/
def Mq.Announces (mq : Mq) : Prop := mq.queue = [] ∧ mq.registered = true

instance (mq : Mq) : Decidable mq.Announces := by unfold Mq.Announces; infer_instance

def Mq.send (mq : Mq) (m : Message) : Mq :=
  { queue := mq.insert m, registered := mq.registered && !decide mq.Announces }

namespace Notified

/-- `first` is the queue as the first registration found it, `read` what has been
received. -/
structure State where
  mq : Mq
  first : Option (List Message)
  owed : Nat
  draining : Nat
  read : List Message
  exited : Bool
  deriving Repr

/-- `merged` is an announcement that finds another one of its kind on its way and
is one with it; `stray` is one the queue did not make, and `kill` one that ends the
program instead. -/
inductive Label
  | register
  | arrive (m : Message) (merged : Bool)
  | stray
  | kill
  | answer
  | receive
  deriving DecidableEq

/-- The owner of the only registration there can be. -/
def register (s : State) : Option State :=
  if s.first = none then
    some { s with mq.registered := true, first := some s.mq.queue }
  else none

def arrive (s : State) (m : Message) (merged : Bool) : Option State :=
  if s.mq.Announces then
    if merged then if 0 < s.owed then some { s with mq := s.mq.send m } else none
    else some { s with mq := s.mq.send m, owed := s.owed + 1 }
  else some { s with mq := s.mq.send m }

/-- `Mq_notify`, which ends the program where a registration exists. -/
def answer (s : State) : Option State :=
  if 0 < s.owed ∧ s.first ≠ none then
    if s.mq.registered then some { s with owed := s.owed - 1, exited := true }
    else
      some { s with owed := s.owed - 1, draining := s.draining + 1, mq.registered := true }
  else none

/-- `mq_receive`, which does not block. -/
def receive (s : State) : Option State :=
  if 0 < s.draining then
    match s.mq.queue with
    | [] => some { s with draining := s.draining - 1 }
    | m :: queue => some { s with mq.queue := queue, read := s.read ++ [m] }
  else none

def step (s : State) : Label → Option State
  | .register => register s
  | .arrive m merged => arrive s m merged
  | .stray => some { s with owed := s.owed + 1 }
  | .kill => if 0 < s.owed then some { s with owed := s.owed - 1, exited := true } else none
  | .answer => answer s
  | .receive => receive s

def system (queue : List Message) : Lts State Label where
  init := ⟨⟨queue, false⟩, none, 0, 0, [], false⟩
  step := step

/-- Announcements come from the queue only, and each has a carrier of its own. -/
def Genuine (_ : State) (a : Label) : Prop :=
  match a with
  | .stray | .kill | .arrive _ true => False
  | _ => True

-- ---------------------------------------------------------------------------
-- No message is missed
-- ---------------------------------------------------------------------------

/-- The queue was not empty when it was first registered for, and none of it has
been read. -/
def Unread (s : State) : Prop := s.read = [] ∧ s.first ≠ some []

structure Inv (s : State) : Prop where
  unregistered : s.first = none → s.mq.registered = false ∧ s.draining = 0 ∧ s.read = []
  announced : s.first ≠ none → s.mq.registered = true ∨ 0 < s.owed
  noticed : s.first ≠ none → s.mq.queue = [] ∨ 0 < s.owed ∨ 0 < s.draining ∨ Unread s

section
variable {s s' : State} {m : Message} {merged : Bool}

theorem insert_ne_nil (mq : Mq) (m : Message) : mq.insert m ≠ [] := by
  simp [Mq.insert]

theorem send_of_not_announces {mq : Mq} (h : ¬ mq.Announces) (m : Message) :
    (mq.send m).registered = mq.registered := by
  simp [Mq.send, h]

theorem inv_arrive (h : Inv s) (hstep : arrive s m merged = some s') : Inv s' := by
  obtain ⟨hun, han, hno⟩ := h
  unfold arrive at hstep
  split at hstep
  · rename_i hann
    -- an announcement leaves, or joins one that is on its way
    have howed : ∃ owed, 0 < owed ∧ s' = { s with mq := s.mq.send m, owed := owed } := by
      cases merged with
      | true =>
        simp only [if_true, Option.ite_none_right_eq_some, Option.some.injEq] at hstep
        exact ⟨s.owed, hstep.1, hstep.2.symm⟩
      | false =>
        simp only [Bool.false_eq_true, if_false, Option.some.injEq] at hstep
        exact ⟨s.owed + 1, Nat.succ_pos _, hstep.symm⟩
    obtain ⟨owed, hpos, rfl⟩ := howed
    refine ⟨fun hf => ?_, fun _ => .inr hpos, fun _ => .inr (.inl hpos)⟩
    have hreg := (hun hf).1
    rw [hann.2] at hreg
    cases hreg
  · rename_i hann
    cases hstep
    refine ⟨fun hf => ?_, fun hf => ?_, fun hf => ?_⟩
    · rw [send_of_not_announces hann]
      exact hun hf
    · rw [send_of_not_announces hann]
      exact han hf
    · rcases hno hf with hempty | hrest
      · rcases han hf with hreg | howed
        · exact absurd ⟨hempty, hreg⟩ hann
        · exact .inr (.inl howed)
      · exact .inr hrest

theorem inv_answer (hstep : answer s = some s') : Inv s' ∨ s'.exited = true := by
  simp only [answer, Option.ite_none_right_eq_some] at hstep
  obtain ⟨⟨-, hfirst⟩, hstep⟩ := hstep
  split at hstep
  · cases hstep
    exact .inr rfl
  · cases hstep
    refine .inl ⟨fun hf => absurd hf hfirst, fun _ => .inl rfl, fun _ => ?_⟩
    exact .inr (.inr (.inl (Nat.succ_pos _)))

theorem inv_receive (h : Inv s) (hstep : receive s = some s') : Inv s' := by
  obtain ⟨hun, han, hno⟩ := h
  simp only [receive, Option.ite_none_right_eq_some] at hstep
  obtain ⟨hdrain, hstep⟩ := hstep
  have hfirst : s.first ≠ none := fun hf => by
    have := (hun hf).2.1
    omega
  cases hqueue : s.mq.queue with
  | nil =>
    simp only [hqueue, Option.some.injEq] at hstep
    subst hstep
    exact ⟨fun hf => absurd hf hfirst, han, fun _ => .inl hqueue⟩
  | cons m queue =>
    simp only [hqueue, Option.some.injEq] at hstep
    subst hstep
    exact ⟨fun hf => absurd hf hfirst, han, fun _ => .inr (.inr (.inl hdrain))⟩

theorem exited_of_step (a : Label) (h : s.exited = true) (hstep : step s a = some s') :
    s'.exited = true := by
  cases a <;> simp only [step] at hstep
  case register =>
    simp only [register, Option.ite_none_right_eq_some, Option.some.injEq] at hstep
    rw [← hstep.2]
    exact h
  case arrive m merged =>
    unfold arrive at hstep
    repeat' split at hstep
    all_goals
      cases hstep
      try exact h
  case stray =>
    cases hstep
    exact h
  case kill =>
    simp only [Option.ite_none_right_eq_some, Option.some.injEq] at hstep
    rw [← hstep.2]
  case answer =>
    simp only [answer, Option.ite_none_right_eq_some] at hstep
    obtain ⟨-, hstep⟩ := hstep
    split at hstep <;> cases hstep
    · rfl
    · exact h
  case receive =>
    simp only [receive, Option.ite_none_right_eq_some] at hstep
    obtain ⟨-, hstep⟩ := hstep
    split at hstep <;> cases hstep <;> exact h

theorem inv_step (h : Inv s ∨ s.exited = true) (a : Label) (hstep : step s a = some s') :
    Inv s' ∨ s'.exited = true := by
  rcases h with h | hexit
  · cases a <;> simp only [step] at hstep
    case register =>
      simp only [register, Option.ite_none_right_eq_some, Option.some.injEq] at hstep
      obtain ⟨hf, rfl⟩ := hstep
      have hread := (h.unregistered hf).2.2
      refine .inl ⟨nofun, fun _ => .inl rfl, fun _ => ?_⟩
      by_cases hempty : s.mq.queue = []
      · exact .inl hempty
      · exact .inr (.inr (.inr ⟨hread, fun heq => hempty (Option.some.inj heq)⟩))
    case arrive m merged => exact .inl (inv_arrive h hstep)
    case stray =>
      cases hstep
      exact .inl ⟨h.unregistered, fun _ => .inr (Nat.succ_pos _),
        fun _ => .inr (.inl (Nat.succ_pos _))⟩
    case kill =>
      simp only [Option.ite_none_right_eq_some, Option.some.injEq] at hstep
      rw [← hstep.2]
      exact .inr rfl
    case answer => exact inv_answer hstep
    case receive => exact .inl (inv_receive h hstep)
  · exact .inr (exited_of_step a hexit hstep)

theorem inv_of_reachable {queue : List Message} {ok : State → Label → Prop}
    (h : (system queue).Reachable ok s) : Inv s ∨ s.exited = true :=
  h.invariant (P := fun s => Inv s ∨ s.exited = true)
    (.inl ⟨fun _ => ⟨rfl, rfl, rfl⟩, fun hf => absurd rfl hf, fun hf => absurd rfl hf⟩)
    fun _ a _ hs _ hstep => inv_step hs a hstep

/-- What is in the queue while nothing is under way was there at the first
registration, and none of it has been read. -/
theorem idle {queue : List Message} {ok : State → Label → Prop}
    (h : (system queue).Reachable ok s) (hrun : s.exited = false) (hfirst : s.first ≠ none)
    (howed : s.owed = 0) (hdrain : s.draining = 0) : s.mq.queue = [] ∨ Unread s := by
  rcases inv_of_reachable h with hinv | hexit
  · rcases hinv.noticed hfirst with hempty | hcoming | hcoming | hunread
    · exact .inl hempty
    · omega
    · omega
    · exact .inr hunread
  · rw [hrun] at hexit
    cases hexit

-- ---------------------------------------------------------------------------
-- One registration or one announcement
-- ---------------------------------------------------------------------------

/-- What the receivers share: the registration, or the duty to renew it. -/
structure Token (s : State) : Prop where
  running : s.exited = false
  before : s.first = none → s.mq.registered = false ∧ s.owed = 0
  one : s.first ≠ none → s.mq.registered.toNat + s.owed = 1

theorem Token.owed_le (h : Token s) : s.owed ≤ 1 := by
  by_cases hfirst : s.first = none
  · rw [(h.before hfirst).2]
    exact Nat.zero_le 1
  · have := h.one hfirst
    omega

theorem token_step (h : Token s) (a : Label) (hok : Genuine s a) (hstep : step s a = some s') :
    Token s' := by
  obtain ⟨hrun, hbefore, hone⟩ := h
  cases a <;> simp only [step] at hstep
  case register =>
    simp only [register, Option.ite_none_right_eq_some, Option.some.injEq] at hstep
    obtain ⟨hf, rfl⟩ := hstep
    refine ⟨hrun, nofun, fun _ => ?_⟩
    have howed := (hbefore hf).2
    simp [howed]
  case arrive m merged =>
    cases merged with
    | true => exact hok.elim
    | false =>
      simp only [arrive, Bool.false_eq_true, if_false] at hstep
      split at hstep <;> cases hstep
      · rename_i hann
        have hfirst : s.first ≠ none := fun hf => by
          have hreg := (hbefore hf).1
          rw [hann.2] at hreg
          cases hreg
        refine ⟨hrun, fun hf => absurd hf hfirst, fun _ => ?_⟩
        have hsum := hone hfirst
        have hreg : (s.mq.send m).registered = false := by simp [Mq.send, hann]
        rw [hann.2, Bool.toNat_true] at hsum
        show (s.mq.send m).registered.toNat + (s.owed + 1) = 1
        rw [hreg, Bool.toNat_false]
        omega
      · rename_i hann
        refine ⟨hrun, fun hf => ?_, fun hf => ?_⟩
        · rw [send_of_not_announces hann]
          exact hbefore hf
        · rw [send_of_not_announces hann]
          exact hone hf
  case stray | kill => exact hok.elim
  case answer =>
    simp only [answer, Option.ite_none_right_eq_some] at hstep
    obtain ⟨⟨hpos, hfirst⟩, hstep⟩ := hstep
    have hsum := hone hfirst
    split at hstep <;> cases hstep
    · -- the token would be held twice
      rename_i hreg
      rw [hreg, Bool.toNat_true] at hsum
      omega
    · rename_i hreg
      refine ⟨hrun, fun hf => absurd hf hfirst, fun _ => ?_⟩
      rw [Bool.not_eq_true] at hreg
      rw [hreg, Bool.toNat_false] at hsum
      show true.toNat + (s.owed - 1) = 1
      rw [Bool.toNat_true]
      omega
  case receive =>
    simp only [receive, Option.ite_none_right_eq_some] at hstep
    obtain ⟨-, hstep⟩ := hstep
    split at hstep <;> cases hstep <;> exact ⟨hrun, hbefore, hone⟩

/-- A move that an abstract step explains. Only a stray signal explains a `stray`
step, and signals kill only before the first registration. -/
def Explained (stray : Prop) (r r' : State) : Prop :=
  r' = r ∨ ∃ b, (b = .stray → stray) ∧ (b = .kill → r.first = none) ∧ step r b = some r'

variable {stray : Prop} {r r' : State} {queue : List Message}

theorem Explained.of_eq (h : r' = r) : Explained stray r r' := .inl h

theorem Explained.of_step (b : Label) (hb : step r b = some r') (hstray : b ≠ .stray := by simp)
    (hkill : b ≠ .kill := by simp) : Explained stray r r' :=
  .inr ⟨b, fun h => absurd h hstray, fun h => absurd h hkill, hb⟩

theorem Explained.follows (h : Explained stray r r') :
    (system queue).Follows anyStep r r' :=
  h.imp_right fun ⟨b, _, _, hb⟩ => ⟨b, trivial, hb⟩

/-- No announcement finds another one on its way while the token is a single one. -/
theorem Token.not_merged (h : Token r) (hb : step r (.arrive m true) = some r') :
    step r (.arrive m false) = some r' := by
  by_cases hann : r.mq.Announces
  · simp only [step, arrive, if_pos hann, if_true, Option.ite_none_right_eq_some] at hb
    obtain ⟨hpos, -⟩ := hb
    by_cases hfirst : r.first = none
    · have howed := (h.before hfirst).2
      omega
    · have hone := h.one hfirst
      rw [hann.2, Bool.toNat_true] at hone
      omega
  · simpa [step, arrive, hann] using hb

theorem Explained.genuine (h : Explained stray r r') (htoken : Token r) (hno : ¬ stray) :
    (system queue).Follows Genuine r r' := by
  rcases h with heq | ⟨b, hstray, hkill, hb⟩
  · exact .inl heq
  · cases b with
    | stray => exact absurd (hstray rfl) hno
    | kill =>
      have howed := (htoken.before (hkill rfl)).2
      simp [step, howed] at hb
    | arrive m merged =>
      cases merged with
      | false => exact .inr ⟨.arrive m false, trivial, hb⟩
      | true => exact .inr ⟨.arrive m false, trivial, htoken.not_merged hb⟩
    | register => exact .inr ⟨.register, trivial, hb⟩
    | answer => exact .inr ⟨.answer, trivial, hb⟩
    | receive => exact .inr ⟨.receive, trivial, hb⟩

theorem token_of_reachable (h : (system queue).Reachable Genuine s) :
    Token s :=
  h.invariant (P := Token) ⟨rfl, fun _ => ⟨rfl, rfl⟩, fun hf => absurd rfl hf⟩
    fun _ a _ hs hok hstep => token_step hs a hok hstep

end

end Notified

end DdsAuto.Pxmsgque
