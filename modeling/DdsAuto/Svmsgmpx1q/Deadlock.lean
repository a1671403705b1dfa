import DdsAuto.Svmsgmpx1q.SingleQueue

/-!
# When the queue fills up

The converse of `no_deadlock_of_fits`. For a client `k` that the others can keep
from its replies there is a schedule: those whose answers have unread messages
go first; then `k` asks, and the server is not let on to its first reply; then
all the others ask. Every step brings the system nearer to its end, so the
schedule stops, and where it stops the queue is full.
-/

namespace DdsAuto.Svmsgmpx1q.SingleQueue

open Function MsgQueue Svmsg

variable {C : Type} {su : Setup C} {s s' : State C} {waiting waiting' : List C} {c k : C}

-- ---------------------------------------------------------------------------
-- Every run ends
-- ---------------------------------------------------------------------------

theorem request_injective (su : Setup C) : Injective su.request := by
  intro c d h
  have hparse := congrArg parse h
  simp only [Clients.request, parse_request, Except.ok.injEq, Prod.mk.injEq] at hparse
  have hpid := congrArg CString.atol hparse.1
  rw [CString.atol_decimal, CString.atol_decimal] at hpid
  exact su.pid_injective (Int.ofNat.inj hpid)

theorem request_mem_iff (h : Inv su waiting s) (c : C) :
    su.request c ∈ ofType 1 s.queue ↔ c ∈ waiting := by
  rw [h.requests, List.mem_map_of_injective (request_injective su)]

/-- The moves that a client and its answer still have to make. -/
def remaining (su : Setup C) (s : State C) (c : C) : Nat :=
  match (s.clients c).pc with
  | .send => 2 * (su.answer c).length + 2
  | .recv _ | .done =>
    (if su.request c ∈ ofType 1 s.queue then 2 * (su.answer c).length + 1 else 0) +
      2 * (s.server.todo (su.pid c)).length + (ofType (su.pid c) s.queue).length

section
variable [DecidableEq C]

theorem remaining_of_ne_send (h : Inv su waiting s) (hpc : (s.clients c).pc ≠ .send) :
    remaining su s c = (if c ∈ waiting then 2 * (su.answer c).length + 1 else 0) +
      2 * (s.server.todo (su.pid c)).length + (ofType (su.pid c) s.queue).length := by
  unfold remaining
  simp only [request_mem_iff h c]
  split
  · rename_i hp
    exact absurd hp hpc
  · rfl
  · rfl

theorem remaining_eq (h : Inv su waiting s) (h' : Inv su waiting' s')
    (hclient : s'.clients c = s.clients c) (hwaits : c ∈ waiting' ↔ c ∈ waiting)
    (hqueued : ofType (su.pid c) s'.queue = ofType (su.pid c) s.queue)
    (htodo : s'.server.todo (su.pid c) = s.server.todo (su.pid c)) :
    remaining su s' c = remaining su s c := by
  unfold remaining
  simp only [hclient, hqueued, htodo, request_mem_iff h c, request_mem_iff h' c, hwaits]

/-- The client that moves, or is served, comes nearer to its end. -/
theorem remaining_moves (h : Inv su waiting s) (hmove : Moves su s waiting a waiting' s') :
    ∃ c, remaining su s' c < remaining su s c ∧ ∀ d, d ≠ c → remaining su s' d = remaining su s d := by
  have h' := inv_moves h hmove
  cases hmove with
  | take c _ rest m todo hserver hrcv hanswer =>
    obtain ⟨hpc, hqueued, htodo⟩ := recv_of_waiting h List.mem_cons_self
    have hnew := (List.nodup_cons.mp h.nodup).1
    refine ⟨c, ?_, fun d hdc => remaining_eq h h' rfl (by simp [hdc])
      (ofType_of_rcv_of_ne hrcv (su.pid_ne_one d)) ?_⟩
    · have hrest := ofType_of_rcv_of_ne hrcv (su.pid_ne_one c)
      rw [hqueued] at hrest
      rw [remaining_of_ne_send h (by simp [hpc]), remaining_of_ne_send h' (by simp [hpc]), if_neg hnew,
        if_pos List.mem_cons_self, hqueued, htodo, hanswer]
      simp only [Server.todo, if_true, hrest, List.length_nil, List.length_cons]
      omega
    · rw [hserver, Server.todo, if_neg (Ne.symm (su.pid_ne hdc))]
      rfl
  | reply c _ m todo hserver _ =>
    have htodo := todo_of_send (d := c) hserver
    rw [if_pos rfl] at htodo
    have hpc := ne_send_of_todo h (c := c) (by rw [htodo]; simp)
    refine ⟨c, ?_, fun d hdc => remaining_eq h h' rfl Iff.rfl
      (ofType_append_of_ne (Ne.symm (su.pid_ne hdc)) m) ?_⟩
    · rw [remaining_of_ne_send h hpc, remaining_of_ne_send h' hpc, htodo]
      simp only [ofType_append_self, todo_sending, if_true, List.length_append, List.length_cons,
        List.length_nil]
      omega
    · rw [todo_sending, if_neg (Ne.symm (su.pid_ne hdc)), todo_of_send hserver, if_neg hdc]
  | ask c _ hpc _ =>
    have hcl := h.clients c
    simp only [hpc, ClientOk] at hcl
    refine ⟨c, ?_, fun d hdc => remaining_eq h h' ?_ (by simp [hdc])
      (ofType_append_of_ne (Ne.symm (su.pid_ne_one d)) _) rfl⟩
    · rw [remaining_of_ne_send h' (by simp [State.setClient]), if_pos (by simp), remaining, hpc]
      simp only [State.setClient, hcl.2.2, ofType_append_of_ne (Ne.symm (su.pid_ne_one c)), hcl.2.1,
        List.length_nil]
      omega
    · simp [State.setClient, update_of_ne hdc]
  | read c _ m rest hpc hrcv =>
    have hlen := congrArg List.length (ofType_of_rcv hrcv)
    have hsent : ((s.clients c).received m).pc ≠ .send := by
      unfold Client.received
      split <;> simp
    refine ⟨c, ?_, fun d hdc => remaining_eq h h' ?_ Iff.rfl
      (ofType_of_rcv_of_ne hrcv (su.pid_ne hdc)) rfl⟩
    · rw [remaining_of_ne_send h (by simp [hpc]),
        remaining_of_ne_send h' (by simpa only [State.setClient, update_self] using hsent), hlen]
      simp only [State.setClient, List.length_cons]
      omega
    · simp [State.setClient, update_of_ne hdc]

theorem sum_remaining_lt [Fintype C] (h : Inv su waiting s) (hstep : step su s a = some s') :
    ∑ c, remaining su s' c < ∑ c, remaining su s c := by
  obtain ⟨waiting', hmove⟩ := step_moves h hstep
  obtain ⟨c, hlt, hother⟩ := remaining_moves h hmove
  refine Finset.sum_lt_sum (fun d _ => ?_) ⟨c, Finset.mem_univ c, hlt⟩
  by_cases hdc : d = c
  · rw [hdc]
    exact Nat.le_of_lt hlt
  · exact Nat.le_of_eq (hother d hdc)

end

-- ---------------------------------------------------------------------------
-- The schedule
-- ---------------------------------------------------------------------------

/-- The others whose answers have unread messages are done. -/
def Littered (su : Setup C) (k : C) (s : State C) : Prop :=
  ∀ c, c ≠ k → su.unread c ≠ 0 → (s.clients c).pc = .done

/-- The server may not send to `k`. `k` asks when the clients that leave
messages are done, the clients that leave none when `k` is to be served. -/
def Scheduled (su : Setup C) (k : C) (s : State C) : Label C → Prop
  | .server => s.server.todo (su.pid k) = []
  | .client c => (s.clients c).pc = .send →
      (c = k → Littered su k s) ∧ (c ≠ k → su.unread c = 0 → s.server.todo (su.pid k) ≠ [])

structure Plan (su : Setup C) (k : C) (waiting : List C) (s : State C) : Prop where
  tidy : ∀ c, c ≠ k → su.unread c = 0 →
    (s.clients c).pc = .send ∨ c ∈ waiting ∧ s.server.todo (su.pid k) ≠ []
  asked : (s.clients k).pc = .send ∨
    Littered su k s ∧ (k ∈ waiting ∨ s.server.todo (su.pid k) = su.answer k)

/-- Once `k` is to be served it has read nothing. -/
theorem unread_of_asked (h : Inv su waiting s) (hp : Plan su k waiting s)
    (hsent : (s.clients k).pc ≠ .send) :
    (s.clients k).pc = .recv (su.pid k) ∧ ofType (su.pid k) s.queue = [] := by
  obtain ⟨-, hwait | htodo⟩ := hp.asked.resolve_left hsent
  · obtain ⟨hpc, hqueued, -⟩ := recv_of_waiting h hwait
    exact ⟨hpc, hqueued⟩
  · have hcl := h.clients k
    have hne : su.answer k ≠ [] := answer_ne_nil _ _ _
    cases hpc : (s.clients k).pc <;> simp only [hpc, ClientOk, htodo] at hcl
    · exact absurd hpc hsent
    · obtain ⟨rfl, ⟨-, -, hnil⟩ | ⟨-, read, hanswer, -⟩⟩ := hcl
      · exact absurd hnil hne
      · have hlen := congrArg List.length hanswer
        simp only [List.length_append] at hlen
        exact ⟨rfl, List.length_eq_zero_iff.mp (by omega)⟩
    · obtain ⟨-, read, hanswer, -⟩ := hcl
      have hlen := congrArg List.length hanswer
      simp only [List.length_append, List.length_cons] at hlen
      omega

/-- The clients that are done stay so when another one moves. -/
theorem Littered.other (h : Littered su k s) (hsame : ∀ d, d ≠ c → s'.clients d = s.clients d)
    (hpc : (s.clients c).pc ≠ .done) : Littered su k s' := by
  intro d hdk hd
  have hdc : d ≠ c := by
    rintro rfl
    exact hpc (h d hdk hd)
  rw [hsame d hdc]
  exact h d hdk hd

/-- A step of the server, which has nothing for `k`, is its client's turn. -/
theorem plan_server (hp : Plan su k waiting s) (hnone : s.server.todo (su.pid k) = [])
    (hclients : s'.clients = s.clients)
    (hk : k ∈ waiting → k ∈ waiting' ∨ s'.server.todo (su.pid k) = su.answer k) :
    Plan su k waiting' s' := by
  refine ⟨fun d hdk hd => ?_, ?_⟩
  · rw [hclients]
    exact .inl ((hp.tidy d hdk hd).resolve_right fun hwait => hwait.2 hnone)
  · unfold Littered
    rw [hclients]
    rcases hp.asked with hsend | ⟨hlit, hmem | htodo⟩
    · exact .inl hsend
    · exact .inr ⟨hlit, hk hmem⟩
    · exact absurd (htodo.symm.trans hnone) (answer_ne_nil _ _ _)

variable [DecidableEq C]

theorem plan_ask (hp : Plan su k waiting s) (hpc : (s.clients c).pc = .send)
    (hok : Scheduled su k s (.client c)) (cl : Client) (q : Queue) :
    Plan su k (waiting ++ [c]) (({ s with queue := q } : State C).setClient c cl) := by
  obtain ⟨hk, hothers⟩ := hok hpc
  have hsame (d : C) (hdc : d ≠ c) :
      (({ s with queue := q } : State C).setClient c cl).clients d = s.clients d := update_of_ne hdc ..
  refine ⟨fun d hdk hd => ?_, ?_⟩
  · by_cases hdc : d = c
    · subst hdc
      exact .inr ⟨by simp, hothers hdk hd⟩
    · rw [hsame d hdc]
      exact (hp.tidy d hdk hd).imp_right fun hwait => ⟨List.mem_append_left _ hwait.1, hwait.2⟩
  · by_cases hck : c = k
    · subst hck
      exact .inr ⟨(hk rfl).other hsame (by simp [hpc]), .inl (by simp)⟩
    · rw [hsame k (Ne.symm hck)]
      rcases hp.asked with hsend | ⟨hlit, hk⟩
      · exact .inl hsend
      · exact .inr ⟨hlit.other hsame (by simp [hpc]), hk.imp_left (List.mem_append_left _)⟩

theorem plan_read (h : Inv su waiting s) (hp : Plan su k waiting s)
    (hpc : (s.clients c).pc = .recv (su.pid c)) (hqueued : ofType (su.pid c) s.queue ≠ [])
    (cl : Client) (q : Queue) :
    Plan su k waiting (({ s with queue := q } : State C).setClient c cl) := by
  have hsame (d : C) (hdc : d ≠ c) :
      (({ s with queue := q } : State C).setClient c cl).clients d = s.clients d := update_of_ne hdc ..
  have hck : c ≠ k := by
    rintro rfl
    exact hqueued (unread_of_asked h hp (by simp [hpc])).2
  refine ⟨fun d hdk hd => ?_, ?_⟩
  · rcases hp.tidy d hdk hd with hsend | hwait
    · have hdc : d ≠ c := by
        rintro rfl
        rw [hsend] at hpc
        cases hpc
      rw [hsame d hdc]
      exact .inl hsend
    · exact .inr hwait
  · rw [hsame k (Ne.symm hck)]
    rcases hp.asked with hsend | ⟨hlit, hk⟩
    · exact .inl hsend
    · exact .inr ⟨hlit.other hsame (by simp [hpc]), hk⟩

theorem plan_moves (h : Inv su waiting s) (hp : Plan su k waiting s) (hok : Scheduled su k s a)
    (hmove : Moves su s waiting a waiting' s') : Plan su k waiting' s' := by
  cases hmove with
  | take c _ rest m todo _ _ hanswer =>
    refine plan_server hp hok rfl fun hmem => ?_
    rcases List.mem_cons.mp hmem with rfl | hmem
    · refine .inr ?_
      simp only [Server.todo, if_true]
      exact hanswer.symm
    · exact .inl hmem
  | reply c _ m todo _ _ => exact plan_server hp hok rfl .inl
  | ask c _ hpc _ => exact plan_ask hp hpc hok _ _
  | read c _ m rest hpc hrcv =>
    refine plan_read h hp hpc ?_ _ _
    rw [ofType_of_rcv hrcv]
    exact List.cons_ne_nil _ _

-- ---------------------------------------------------------------------------
-- Where the schedule stops
-- ---------------------------------------------------------------------------

/-- With nobody waiting and nobody served, a client that cannot move has not
sent or is done. -/
theorem send_or_done (h : Inv su [] s) (hserver : s.server = .recv)
    (hnone : (s.clients c).pc ≠ .send → step su s (.client c) = none) :
    (s.clients c).pc = .send ∨ (s.clients c).pc = .done := by
  cases hpc : (s.clients c).pc with
  | send => exact .inl rfl
  | done => exact .inr rfl
  | recv t =>
    have hstuck := hnone (by simp [hpc])
    have hcl := h.clients c
    simp only [hpc, ClientOk] at hcl
    simp only [step, client, hpc, hcl.1, Option.map_eq_none_iff] at hstuck
    refine absurd ?_ (todo_ne_nil h hpc (rcv_eq_none_iff.mp hstuck) (by simp))
    rw [hserver]
    rfl

/-- When `k` is to be served, each of the others takes up its part of the queue. -/
theorem weight_le_load (h : Inv su waiting s) (hp : Plan su k waiting s)
    (htodo : s.server.todo (su.pid k) ≠ []) (hserver : s.server = .send (su.pid k) m todo)
    (hsent : ∀ c, c ≠ k → (s.clients c).pc ≠ .send) (hck : c ≠ k) :
    su.weight c ≤ load su waiting s c := by
  obtain ⟨hlit, -⟩ := hp.asked.resolve_left (ne_send_of_todo h htodo)
  by_cases hc : su.unread c = 0
  · obtain ⟨hmem, -⟩ := (hp.tidy c hck hc).resolve_left (hsent c hck)
    rw [Setup.weight, hc, load, if_pos hmem]
    simp
  · obtain ⟨hnot, hlen⟩ := unread_of_done h (hlit c hck hc)
    rw [todo_of_send hserver, if_neg hck, List.length_nil, Nat.add_zero] at hlen
    rw [Setup.weight, load, if_neg hnot, hlen]
    omega

variable [Fintype C]

theorem full_of_stopped (hk : su.capacity ≤ ∑ c ∈ Finset.univ.erase k, su.weight c)
    (h : Inv su waiting s) (hp : Plan su k waiting s)
    (hstop : ∀ a, Scheduled su k s a → step su s a = none) : su.capacity ≤ s.queue.length := by
  have hmoved {c : C} (hpc : (s.clients c).pc ≠ .send) : step su s (.client c) = none :=
    hstop (.client c) fun hsend => absurd hsend hpc
  rcases h.server with hrecv | ⟨c, m, todo, hsend⟩
  · have hnone : s.server.todo (su.pid k) = [] := by
      rw [hrecv]
      rfl
    have hwaiting := waiting_of_server h hrecv (hstop .server hnone)
    subst hwaiting
    by_cases hlit : Littered su k s
    · -- it is the turn of `k`
      have hpc : (s.clients k).pc = .send := by
        refine hp.asked.resolve_right ?_
        rintro ⟨-, hmem | htodo⟩
        · cases hmem
        · exact answer_ne_nil _ _ _ (htodo.symm.trans hnone)
      exact client_room hpc (hstop (.client k) fun _ => ⟨fun _ => hlit, fun hne => absurd rfl hne⟩)
    · simp only [Littered, not_forall] at hlit
      obtain ⟨c, hck, hc, hdone⟩ := hlit
      have hpc := (send_or_done h hrecv hmoved).resolve_right hdone
      exact client_room hpc (hstop (.client c) fun _ => ⟨fun heq => absurd heq hck, fun _ h0 => absurd h0 hc⟩)
  · by_cases hck : c = k
    · subst hck
      have htodo : s.server.todo (su.pid c) ≠ [] := by
        rw [todo_of_send hsend, if_pos rfl]
        simp
      by_cases hsent : ∀ d, d ≠ c → (s.clients d).pc ≠ .send
      · -- all have asked, and the queue holds what they leave
        have hlen := length_queue h
        have hsplit := Finset.add_sum_erase Finset.univ (load su waiting s) (Finset.mem_univ c)
        have hle := Finset.sum_le_sum fun d (hd : d ∈ Finset.univ.erase c) =>
          weight_le_load h hp htodo hsend hsent (Finset.ne_of_mem_erase hd)
        omega
      · simp only [not_forall, not_not] at hsent
        obtain ⟨d, hdc, hpc⟩ := hsent
        exact client_room hpc (hstop (.client d) fun _ => ⟨fun heq => absurd heq hdc, fun _ _ => htodo⟩)
    · refine server_room hsend (hstop .server ?_)
      show s.server.todo (su.pid k) = []
      rw [todo_of_send hsend, if_neg (Ne.symm hck)]

theorem deadlock_of_stopped (hk : su.capacity ≤ ∑ c ∈ Finset.univ.erase k, su.weight c)
    (h : Inv su waiting s) (hp : Plan su k waiting s)
    (hstop : ∀ a, Scheduled su k s a → step su s a = none) : Deadlock su s := by
  have hfull := full_of_stopped hk h hp hstop
  refine ⟨⟨k, fun hdone => ?_⟩, fun a => ?_⟩
  · rw [(unread_of_asked h hp (by simp [hdone])).1] at hdone
    cases hdone
  · cases a with
    | server =>
      rcases h.server with hrecv | ⟨c, m, todo, hsend⟩
      · refine hstop .server ?_
        show s.server.todo (su.pid k) = []
        rw [hrecv]
        rfl
      · simp only [step, server, hsend, if_neg (su.not_pid_le_zero c), if_neg (Nat.not_lt.mpr hfull)]
    | client c =>
      by_cases hpc : (s.clients c).pc = .send
      · simp only [step, client, hpc, if_neg (Nat.not_lt.mpr hfull)]
      · exact hstop (.client c) fun hsend => absurd hsend hpc

theorem exists_deadlock (hk : su.capacity ≤ ∑ c ∈ Finset.univ.erase k, su.weight c) :
    ∃ s, (lts su).Reachable Lts.anyStep s ∧ Deadlock su s := by
  let P := fun s => ∃ waiting, Inv su waiting s ∧ Plan su k waiting s
  have hstart : P State.init := ⟨[], inv_init su, fun _ _ _ => .inl rfl, .inl rfl⟩
  have hdec : ∀ s a s', P s → step su s a = some s' →
      ∑ c, remaining su s' c < ∑ c, remaining su s c := by
    rintro s a s' ⟨waiting, h, -⟩ hstep
    exact sum_remaining_lt h hstep
  have hpres : ∀ s a s', P s → Scheduled su k s a → step su s a = some s' → P s' := by
    rintro s a s' ⟨waiting, h, hp⟩ hok hstep
    obtain ⟨waiting', hmove⟩ := step_moves h hstep
    exact ⟨waiting', inv_moves h hmove, plan_moves h hp hok hmove⟩
  have hmove : ∀ s, P s → ¬ Deadlock su s → ∃ a s', Scheduled su k s a ∧ step su s a = some s' := by
    rintro s ⟨waiting, h, hp⟩ hdead
    by_contra hnone
    refine hdead (deadlock_of_stopped hk h hp fun a hok => ?_)
    cases hstep : step su s a with
    | none => rfl
    | some s' => exact absurd ⟨a, s', hok, hstep⟩ hnone
  obtain ⟨s, hr, -, hdead⟩ :=
    Lts.exists_reachable_of_measure (L := lts su) (Scheduled su k) hdec hpres hmove .init hstart
  exact ⟨s, hr, hdead⟩

theorem no_deadlock_iff (su : Setup C) :
    (∀ s, (lts su).Reachable Lts.anyStep s → ¬ Deadlock su s) ↔ Fits su := by
  constructor
  · intro hfree k
    by_contra hk
    obtain ⟨s, hr, hdead⟩ := exists_deadlock (Nat.le_of_not_lt hk)
    exact hfree s hr hdead
  · intro hfits s hr
    obtain ⟨waiting, h⟩ := exists_inv hr
    exact no_deadlock_of_fits h hfits

/-- Two clients, and room for one message. -/
def crowded : Setup (Fin 2) where
  pid := fun c => c.val + 2
  stdin := fun _ => [97, 10]
  fopen := fun _ _ => .ok [98]
  one_lt_pid := fun c => Nat.succ_lt_succ (Nat.succ_pos c)
  pid_lt := fun c => Nat.lt_trans (Nat.add_lt_add_right c.isLt 2) (by decide)
  pid_injective := fun _ _ heq => Fin.ext (Nat.add_right_cancel heq)
  capacity := 1
  capacity_pos := Nat.one_pos

/-- The second client asks while the server has the first one's request. -/
theorem crowded_deadlock : ∃ s, (lts crowded).Reachable Lts.anyStep s ∧ Deadlock crowded s := by
  obtain ⟨s, hr, hs⟩ := Lts.reachable_of_exec (lts crowded) [.client 0, .server, .client 1]
    (fun s => s.server = .send 2 [98] [[]] ∧ s.queue.map Msg.type = [1] ∧
      (s.clients 0).pc = .recv 2 ∧ (s.clients 1).pc = .recv 3) (by decide +kernel)
  simp only [decide_eq_true_eq] at hs
  obtain ⟨hserver, htypes, h0, h1⟩ := hs
  obtain ⟨m, hqueue, hm⟩ := List.map_eq_singleton_iff.mp htypes
  have hclients : ∀ c, step crowded s (.client c) = none := by
    refine Fin.forall_fin_two.mpr ⟨?_, ?_⟩
    · simp [step, client, h0, hqueue, rcv, hm]
    · simp [step, client, h1, hqueue, rcv, hm]
  refine ⟨s, hr, ⟨0, by simp [h0]⟩, fun a => ?_⟩
  cases a with
  | server => simp [step, server, hserver, hqueue, crowded]
  | client c => exact hclients c

/-- Where every answer has its empty message at its end, there must be no more
clients than messages in the queue. -/
theorem fits_iff_card_le [Nonempty C] (hunread : ∀ c, su.unread c = 0) :
    Fits su ↔ Fintype.card C ≤ su.capacity := by
  have hsum (k : C) : ∑ c ∈ Finset.univ.erase k, su.weight c = Fintype.card C - 1 := by
    rw [Finset.sum_congr rfl fun c _ => show su.weight c = 1 by rw [Setup.weight, hunread]; rfl]
    rw [Finset.sum_const, Finset.card_erase_of_mem (Finset.mem_univ k), Finset.card_univ]
    simp
  have hpos := Fintype.card_pos (α := C)
  constructor
  · intro hfits
    obtain ⟨k⟩ := ‹Nonempty C›
    have hk := hfits k
    rw [hsum k] at hk
    omega
  · intro hcard k
    rw [hsum k]
    omega

end DdsAuto.Svmsgmpx1q.SingleQueue
