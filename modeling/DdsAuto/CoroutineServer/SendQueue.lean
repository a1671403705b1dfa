import DdsAuto.Asio.IdHeader
import DdsAuto.Lib.Lts

/-!
# The send queue of CoroutineServer

`Send` and `HandleWrite` share one rule: whoever finds or leaves the queue in
need of a write issues it, after releasing `_send_lock`. Nothing outside the
lock touches the queue, so a critical section is one step here and the
`async_write` behind it another. `Turn` says whose turn to write it is.
-/

namespace DdsAuto.CoroutineServer

open CInt Asio Lts

/-- Who writes: a thread that called `Send`, or the handler of the `k`-th
`async_write`. -/
inductive Party
  | sender (i : Nat)
  | write (k : Nat)
  deriving DecidableEq, Repr

/-- `about` has released the lock and has yet to call `async_write`; the other
phases are those of the write itself, `closed` being a failure handled. -/
inductive Phase
  | idle
  | about (node : SendNode)
  | outstanding (node : SendNode)
  | completed (node : SendNode)
  | failed (node : SendNode)
  | closed (node : SendNode)
  deriving DecidableEq, Repr

structure SendState where
  sendQue : List SendNode
  parties : Party → Phase
  next : Nat
  accepted : List SendNode
  issued : List SendNode
  popped : List SendNode

namespace SendState

def set (s : SendState) (p : Party) (ph : Phase) : SendState :=
  { s with parties := Function.update s.parties p ph }

def start : SendState where
  sendQue := []
  parties := fun _ => .idle
  next := 0
  accepted := []
  issued := []
  popped := []

end SendState

/-- `Send` up to the release of the lock. A constructor that throws leaves the
queue alone; one that never returns is not followed further. -/
def send (s : SendState) (i : Nat) (msg : List UInt8) (maxLength msgid : Int) : Option SendState :=
  if s.sendQue.length > maxSendque then some s
  else
    match SendNode.new 4 msg maxLength msgid with
    | .error .badArrayNewLength => some s
    | .error .wildCopy => none
    | .ok node =>
      let s' := { s with sendQue := s.sendQue ++ [node], accepted := s.accepted ++ [node] }
      some (if s.sendQue.length > 0 then s' else s'.set (.sender i) (.about node))

/-- `async_write` of the node at the front, by a party that released the lock. -/
def asyncWrite (s : SendState) (p : Party) (node : SendNode) : SendState :=
  { (s.set p .idle).set (.write s.next) (.outstanding node) with
    issued := s.issued ++ [node]
    next := s.next + 1 }

/-- `HandleWrite` without an error up to the release of the lock. -/
def handleWrite (s : SendState) (k : Nat) : Option SendState :=
  match s.sendQue with
  | [] => none
  | node :: rest =>
    let s := { s with sendQue := rest, popped := s.popped ++ [node] }
    some (s.set (.write k) (rest.head?.elim .idle .about))

inductive SendLabel
  | send (i : Nat) (msg : List UInt8) (maxLength msgid : Int)
  | issue (p : Party)
  | complete (k : Nat) (error : Bool)
  | handle (k : Nat)
  deriving DecidableEq, Repr

def sendStep (s : SendState) : SendLabel → Option SendState
  | .send i msg maxLength msgid =>
    if s.parties (.sender i) = .idle then send s i msg maxLength msgid else none
  | .issue p =>
    match s.parties p with
    | .about node => some (asyncWrite s p node)
    | _ => none
  | .complete k error =>
    match s.parties (.write k) with
    | .outstanding node => some (s.set (.write k) (if error then .failed node else .completed node))
    | _ => none
  | .handle k =>
    match s.parties (.write k) with
    | .completed _ => handleWrite s k
    | .failed node => some (s.set (.write k) (.closed node))
    | _ => none

def sendSystem : Lts SendState SendLabel where
  init := .start
  step := sendStep

-- ---------------------------------------------------------------------------
-- Whose turn it is
-- ---------------------------------------------------------------------------

/-- Every party but `p` is idle. -/
def OthersIdle (s : SendState) (p : Party) : Prop := ∀ q, q ≠ p → s.parties q = .idle

inductive Turn (s : SendState) : Prop
  | nobody : s.sendQue = [] → (∀ q, s.parties q = .idle) → s.issued = s.popped → Turn s
  | about (p : Party) (node : SendNode) (rest : List SendNode) : s.sendQue = node :: rest →
      s.parties p = .about node → OthersIdle s p → s.issued = s.popped → Turn s
  | writing (k : Nat) (node : SendNode) (rest : List SendNode) : s.sendQue = node :: rest →
      s.parties (.write k) = .outstanding node ∨ s.parties (.write k) = .completed node →
      OthersIdle s (.write k) → s.issued = s.popped ++ [node] → Turn s
  | broken (k : Nat) (node : SendNode) (rest : List SendNode) : s.sendQue = node :: rest →
      s.parties (.write k) = .failed node ∨ s.parties (.write k) = .closed node →
      OthersIdle s (.write k) → s.issued = s.popped ++ [node] → Turn s

structure SendInv (s : SendState) : Prop where
  turn : Turn s
  accepted : s.popped ++ s.sendQue = s.accepted
  fresh : ∀ k, s.next ≤ k → s.parties (.write k) = .idle

section
variable {s s' : SendState} {p q : Party} {msg : List UInt8} {maxLength msgid : Int}

@[simp] theorem set_same (s : SendState) (p : Party) (ph : Phase) :
    (s.set p ph).parties p = ph := by
  simp [SendState.set]

theorem set_other (ph : Phase) (h : q ≠ p) : (s.set p ph).parties q = s.parties q := by
  simp [SendState.set, h]

theorem othersIdle_set (h : OthersIdle s p) (ph : Phase) : OthersIdle (s.set p ph) p :=
  fun q hq => by rw [set_other ph hq, h q hq]

/-- What is known where some party is not idle. -/
inductive Active (s : SendState) (p : Party) : Phase → Prop
  | about (node : SendNode) (rest : List SendNode) : s.sendQue = node :: rest →
      OthersIdle s p → s.issued = s.popped → Active s p (.about node)
  | write (ph : Phase) (k : Nat) (node : SendNode) (rest : List SendNode) :
      p = .write k → ph = .outstanding node ∨ ph = .completed node ∨ ph = .failed node ∨
        ph = .closed node →
      s.sendQue = node :: rest → OthersIdle s p → s.issued = s.popped ++ [node] → Active s p ph

theorem active_of_turn (ht : Turn s) (hp : s.parties p = ph) (hne : ph ≠ .idle) :
    Active s p ph := by
  subst hp
  have hsame {p' : Party} (ho : OthersIdle s p') : p' = p :=
    (Classical.em (p = p')).elim Eq.symm fun hpp => absurd (ho p hpp) hne
  cases ht with
  | nobody _ hall => exact absurd (hall p) hne
  | about p' node rest hq hp ho hi =>
    obtain rfl := hsame ho
    rw [hp]
    exact .about node rest hq ho hi
  | writing k node rest hq hk ho hi =>
    obtain rfl := hsame ho
    exact .write _ k node rest rfl (hk.elim .inl fun h => .inr (.inl h)) hq ho hi
  | broken k node rest hq hk ho hi =>
    obtain rfl := hsame ho
    exact .write _ k node rest rfl (hk.elim (fun h => .inr (.inr (.inl h)))
      fun h => .inr (.inr (.inr h))) hq ho hi

theorem Active.front (h : Active s p ph) :
    ∃ node rest, s.sendQue = node :: rest ∧ OthersIdle s p := by
  cases h with
  | about node rest hq ho => exact ⟨node, rest, hq, ho⟩
  | write _ _ node rest _ _ hq ho => exact ⟨node, rest, hq, ho⟩

theorem fresh_set (hf : ∀ k, s.next ≤ k → s.parties (.write k) = .idle)
    (hp : s.parties p ≠ .idle) (ph : Phase) (k : Nat) (hk : s.next ≤ k) :
    (s.set p ph).parties (.write k) = .idle := by
  rw [set_other ph (fun h => hp (by rw [← h]; exact hf k hk))]
  exact hf k hk

/-- A frame pushed behind others changes nobody's turn. -/
theorem turn_push (ht : Turn s) (hne : s.sendQue ≠ []) (node : SendNode)
    (accepted : List SendNode) :
    Turn { s with sendQue := s.sendQue ++ [node], accepted := accepted } := by
  cases ht with
  | nobody hq => exact absurd hq hne
  | about p h rest hq hp ho hi => exact .about p h (rest ++ [node]) (by simp [hq]) hp ho hi
  | writing k h rest hq hp ho hi => exact .writing k h (rest ++ [node]) (by simp [hq]) hp ho hi
  | broken k h rest hq hp ho hi => exact .broken k h (rest ++ [node]) (by simp [hq]) hp ho hi

theorem send_inv (hs : SendInv s) (h : send s i msg maxLength msgid = some s') :
    SendInv s' := by
  obtain ⟨ht, hacc, hf⟩ := hs
  unfold send at h
  split at h
  · cases h
    exact ⟨ht, hacc, hf⟩
  · split at h
    · cases h
      exact ⟨ht, hacc, hf⟩
    · cases h
    · rename_i node _
      have hacc' : s.popped ++ (s.sendQue ++ [node]) = s.accepted ++ [node] := by
        rw [← List.append_assoc, hacc]
      simp only [Option.some.injEq] at h
      subst h
      split
      · rename_i hlen
        exact ⟨turn_push ht (List.length_pos_iff.mp hlen) node _, hacc', hf⟩
      · rename_i hlen
        have hq : s.sendQue = [] := List.eq_nil_of_length_eq_zero (by omega)
        refine ⟨?_, hacc', fun k hk => ?_⟩
        · cases ht with
          | nobody _ hall hi =>
            exact .about (.sender i) node [] (by simp [SendState.set, hq]) (set_same ..)
              (othersIdle_set (fun q _ => hall q) _) hi
          | about _ _ _ hq' | writing _ _ _ hq' | broken _ _ _ hq' =>
            rw [hq] at hq'
            cases hq'
        · have hne : Party.write k ≠ .sender i := nofun
          rw [set_other _ hne]
          exact hf k hk

theorem asyncWrite_inv (hs : SendInv s) (hp : s.parties p = .about node) :
    SendInv (asyncWrite s p node) := by
  obtain ⟨ht, hacc, hf⟩ := hs
  cases active_of_turn ht hp nofun with
  | write _ _ _ _ _ hph => simp at hph
  | about _ rest hq ho hi =>
    have hidle (q : Party) : (s.set p .idle).parties q = .idle := by
      by_cases hqp : q = p
      · rw [hqp, set_same]
      · rw [set_other _ hqp, ho q hqp]
    have hone : OthersIdle (asyncWrite s p node) (.write s.next) :=
      othersIdle_set (fun q _ => hidle q) (.outstanding node)
    refine ⟨.writing s.next node rest hq (.inl (set_same ..)) hone ?_, hacc,
      fun k hk => hone (.write k) fun h => ?_⟩
    · simp [asyncWrite, SendState.set, hi]
    · cases h
      simp only [asyncWrite] at hk
      omega

theorem complete_inv (hs : SendInv s) (hk : s.parties (.write k) = .outstanding node)
    (error : Bool) :
    SendInv (s.set (.write k) (if error then .failed node else .completed node)) := by
  obtain ⟨ht, hacc, hf⟩ := hs
  have hfresh := fresh_set hf (p := .write k) (by rw [hk]; nofun)
  cases active_of_turn ht hk nofun with
  | write _ k' node' rest _ hph hq ho hi =>
    obtain rfl : node = node' := by simpa using hph
    cases error with
    | true =>
      exact ⟨.broken k node rest hq (.inl (set_same ..)) (othersIdle_set ho _) hi, hacc, hfresh _⟩
    | false =>
      exact ⟨.writing k node rest hq (.inr (set_same ..)) (othersIdle_set ho _) hi, hacc, hfresh _⟩

theorem handleWrite_inv (hs : SendInv s) (hk : s.parties (.write k) = .completed node)
    (h : handleWrite s k = some s') : SendInv s' := by
  obtain ⟨ht, hacc, hf⟩ := hs
  have hfresh := fresh_set hf (p := .write k) (by rw [hk]; nofun)
  cases active_of_turn ht hk nofun with
  | write _ k' node' rest _ hph hq ho hi =>
    obtain rfl : node = node' := by simpa using hph
    simp only [handleWrite, hq, Option.some.injEq] at h
    subst h
    have hacc' : (s.popped ++ [node]) ++ rest = s.accepted := by
      rw [← hacc, hq, List.append_assoc]
      rfl
    have ho' := othersIdle_set ho (rest.head?.elim .idle .about)
    refine ⟨?_, hacc', hfresh _⟩
    cases rest with
    | nil =>
      refine .nobody rfl (fun q => ?_) hi
      by_cases hq : q = .write k
      · rw [hq]
        exact set_same ..
      · exact ho' q hq
    | cons next rest => exact .about (.write k) next rest rfl (set_same ..) ho' hi

theorem closed_inv (hs : SendInv s) (hk : s.parties (.write k) = .failed node) :
    SendInv (s.set (.write k) (.closed node)) := by
  obtain ⟨ht, hacc, hf⟩ := hs
  have hfresh := fresh_set hf (p := .write k) (by rw [hk]; nofun)
  cases active_of_turn ht hk nofun with
  | write _ k' node' rest _ hph hq ho hi =>
    obtain rfl : node = node' := by simpa using hph
    exact ⟨.broken k node rest hq (.inr (set_same ..)) (othersIdle_set ho _) hi, hacc, hfresh _⟩

theorem sendStep_inv (hs : SendInv s) (h : sendStep s a = some s') : SendInv s' := by
  cases a with
  | send i msg maxLength msgid =>
    simp only [sendStep, Option.ite_none_right_eq_some] at h
    exact send_inv hs h.2
  | issue p =>
    cases hp : s.parties p <;> simp only [sendStep, hp] at h <;> cases h
    exact asyncWrite_inv hs hp
  | complete k error =>
    cases hk : s.parties (.write k) <;> simp only [sendStep, hk] at h <;> cases h
    exact complete_inv hs hk error
  | handle k =>
    cases hk : s.parties (.write k) <;> simp only [sendStep, hk] at h
    case completed => exact handleWrite_inv hs hk h
    case failed =>
      cases h
      exact closed_inv hs hk
    all_goals cases h

theorem sendInv_reachable (h : sendSystem.Reachable anyStep s) : SendInv s :=
  h.invariant (P := SendInv) ⟨.nobody rfl (fun _ => rfl) rfl, rfl, fun _ _ => rfl⟩
    fun _ _ _ hs _ hstep => sendStep_inv hs hstep

end

-- ---------------------------------------------------------------------------
-- What the queue guarantees
-- ---------------------------------------------------------------------------

def Phase.Live : Phase → Prop
  | .about _ | .outstanding _ | .completed _ => True
  | _ => False

def Phase.Failed : Phase → Prop
  | .failed _ | .closed _ => True
  | _ => False

/-- A party with a write about to be issued, under way, or done and not popped. -/
def SendState.Live (s : SendState) (p : Party) : Prop := (s.parties p).Live

def SendState.Failed (s : SendState) : Prop := ∃ p, (s.parties p).Failed

structure SendProtocol (s : SendState) : Prop where
  one : ∀ p q, s.Live p → s.Live q → p = q
  busy : ¬ s.Failed → (s.sendQue ≠ [] ↔ ∃ p, s.Live p)
  inOrder : s.issued <+: s.accepted
  noneLost : s.popped ++ s.sendQue = s.accepted
  accepts : ∀ i msg maxLength msgid node s',
    sendStep s (.send i msg maxLength msgid) = some s' →
    SendNode.new 4 msg maxLength msgid = .ok node →
    s'.accepted = if s.sendQue.length ≤ maxSendque then s.accepted ++ [node] else s.accepted
  acceptsOnly : ∀ a s', sendStep s a = some s' →
    (∀ i msg maxLength msgid, a = .send i msg maxLength msgid →
      ∃ e, SendNode.new 4 msg maxLength msgid = .error e) → s'.accepted = s.accepted
  afterFailure : s.Failed → ∀ as s', sendSystem.exec s as = some s' → s'.issued = s.issued

section
variable {s s' : SendState} {p q : Party} {msg : List UInt8} {maxLength msgid : Int}

theorem live_others_idle (ht : Turn s) (hp : s.Live p) : OthersIdle s p := by
  have hne : s.parties p ≠ .idle := fun h => by simp [SendState.Live, h, Phase.Live] at hp
  obtain ⟨_, _, _, ho⟩ := (active_of_turn ht rfl hne).front
  exact ho

theorem busy_iff (ht : Turn s) (hno : ¬ s.Failed) : s.sendQue ≠ [] ↔ ∃ p, s.Live p := by
  cases ht with
  | nobody hq hall => simp [hq, SendState.Live, hall, Phase.Live]
  | about p _ _ hq hp => simpa [hq] using ⟨p, by simp [SendState.Live, hp, Phase.Live]⟩
  | writing k _ _ hq hk =>
    have hlive : s.Live (.write k) := by
      rcases hk with hk | hk <;> simp [SendState.Live, hk, Phase.Live]
    simpa [hq] using ⟨_, hlive⟩
  | broken k _ _ hq hk =>
    refine absurd ⟨.write k, ?_⟩ hno
    rcases hk with hk | hk <;> simp [hk, Phase.Failed]

theorem issued_prefix (hs : SendInv s) : s.issued <+: s.accepted := by
  rw [← hs.accepted]
  cases hs.turn with
  | nobody _ _ hi | about _ _ _ _ _ _ hi =>
    rw [hi]
    exact List.prefix_append ..
  | writing _ _ _ hq _ _ hi | broken _ _ _ hq _ _ hi =>
    rw [hi, hq]
    exact ⟨_, List.append_assoc ..⟩

theorem send_accepts (h : send s i msg maxLength msgid = some s')
    (hnode : SendNode.new 4 msg maxLength msgid = .ok node) :
    s'.accepted = if s.sendQue.length ≤ maxSendque then s.accepted ++ [node] else s.accepted := by
  unfold send at h
  rw [hnode] at h
  split at h
  · rename_i hfull
    cases h
    rw [if_neg (Nat.not_le.mpr hfull)]
  · rename_i hroom
    rw [if_pos (Nat.not_lt.mp hroom)]
    simp only [Option.some.injEq] at h
    subst h
    split <;> rfl

theorem sendStep_accepted (h : sendStep s a = some s')
    (hno : ∀ i msg maxLength msgid, a = .send i msg maxLength msgid →
      ∃ e, SendNode.new 4 msg maxLength msgid = .error e) : s'.accepted = s.accepted := by
  cases a with
  | send i msg maxLength msgid =>
    obtain ⟨e, he⟩ := hno i msg maxLength msgid rfl
    simp only [sendStep, Option.ite_none_right_eq_some, send, he] at h
    obtain ⟨-, h⟩ := h
    split at h
    · cases h
      rfl
    · cases e <;> cases h
      rfl
  | issue p =>
    cases hp : s.parties p <;> simp only [sendStep, hp] at h <;> cases h
    rfl
  | complete k error =>
    cases hk : s.parties (.write k) <;> simp only [sendStep, hk] at h <;> cases h
    rfl
  | handle k =>
    cases hk : s.parties (.write k) <;> simp only [sendStep, hk] at h
    case completed =>
      cases hq : s.sendQue <;> simp only [handleWrite, hq] at h <;> cases h
      rfl
    case failed =>
      cases h
      rfl
    all_goals cases h

/-- A failed write keeps its frame at the front, so nobody becomes live again. -/
theorem failed_step (hs : SendInv s) (hfail : s.Failed) (h : sendStep s a = some s') :
    s'.issued = s.issued ∧ s'.Failed := by
  obtain ⟨p, hp⟩ := hfail
  have hne : s.parties p ≠ .idle := fun h => by simp [h, Phase.Failed] at hp
  obtain ⟨node, rest, hq, ho⟩ := (active_of_turn hs.turn rfl hne).front
  have honly {q : Party} {ph : Phase} (hq : s.parties q = ph) (hph : ph ≠ .idle) : ph.Failed := by
    by_cases hqp : q = p
    · rwa [← hq, hqp]
    · exact absurd (hq.symm.trans (ho q hqp)) hph
  cases a with
  | send i msg maxLength msgid =>
    simp only [sendStep, Option.ite_none_right_eq_some, send] at h
    obtain ⟨-, h⟩ := h
    split at h
    · cases h
      exact ⟨rfl, p, hp⟩
    · split at h
      · cases h
        exact ⟨rfl, p, hp⟩
      · cases h
      · rw [if_pos (by simp [hq])] at h
        cases h
        exact ⟨rfl, p, hp⟩
  | issue q =>
    cases hph : s.parties q <;> simp only [sendStep, hph] at h <;> cases h
    exact (honly hph nofun).elim
  | complete k error =>
    cases hph : s.parties (.write k) <;> simp only [sendStep, hph] at h <;> cases h
    exact (honly hph nofun).elim
  | handle k =>
    cases hph : s.parties (.write k) <;> simp only [sendStep, hph] at h
    case completed => exact (honly hph nofun).elim
    case failed =>
      cases h
      exact ⟨rfl, .write k, by simp [Phase.Failed]⟩
    all_goals cases h

theorem failed_exec (hs : SendInv s) (hfail : s.Failed) (h : sendSystem.exec s as = some s') :
    s'.issued = s.issued := by
  induction as generalizing s with
  | nil =>
    cases h
    rfl
  | cons a as ih =>
    cases hstep : sendStep s a with
    | none => simp [Lts.exec, sendSystem, hstep] at h
    | some t =>
      obtain ⟨hi, hfail'⟩ := failed_step hs hfail hstep
      have hrest : sendSystem.exec t as = some s' := by simpa [Lts.exec, sendSystem, hstep] using h
      rw [ih (sendStep_inv hs hstep) hfail' hrest, hi]

end

theorem send_protocol (s : SendState) (h : sendSystem.Reachable anyStep s) : SendProtocol s := by
  have hs := sendInv_reachable h
  refine ⟨fun p q hp hq => ?_, busy_iff hs.turn, issued_prefix hs, hs.accepted, ?_, ?_,
    fun hfail as s' hrun => failed_exec hs hfail hrun⟩
  · refine Classical.byContradiction fun hne => ?_
    have := live_others_idle hs.turn hp q (Ne.symm hne)
    simp [SendState.Live, this, Phase.Live] at hq
  · intro i msg maxLength msgid node s' hstep hnode
    simp only [sendStep, Option.ite_none_right_eq_some] at hstep
    exact send_accepts hstep.2 hnode
  · exact fun a s' hstep hno => sendStep_accepted hstep hno

/-- Two threads send; the first frame is written and popped, and the handler is
about to write the second. -/
theorem send_protocol_two : ∃ s, s.sendQue.length = 1 ∧ SendProtocol s := by
  obtain ⟨s, hs, hq⟩ := reachable_of_exec sendSystem
    [.send 0 [7] 1 1001, .send 1 [8, 9] 2 1001, .issue (.sender 0), .complete 0 false, .handle 0]
    (fun s => s.sendQue.length == 1) (by decide +kernel)
  exact ⟨s, by simpa using hq, send_protocol s hs⟩

end DdsAuto.CoroutineServer
