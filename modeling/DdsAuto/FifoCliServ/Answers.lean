import DdsAuto.FifoCliServ.Served

/-!
# The clients all end

The measure counts the bytes on their way, each as often as it will still be moved,
and the steps that a process has before it. Every step lowers it, and a state where
none can be taken is one in which every client has its answer and has ended.
-/

namespace DdsAuto.FifoCliServ

open Function Lts UnixLib Threads

variable {C : Type} [DecidableEq C] [Fintype C] {su : Setup C} {s s' : State C} {c d : C} {k : Nat}
variable {served current waiting : List C} {a : Label C}

-- ---------------------------------------------------------------------------
-- Nobody waits for ever
-- ---------------------------------------------------------------------------

omit [Fintype C] in
/-- A client whose FIFO the server finds too full reads from it. -/
theorem read_of_full {text : List UInt8} (h : Inv su served current waiting s) (hw : s.Writing c)
    (htext : text.length ≤ MAXLINE) (hfull : ¬ (s.fifo c).length + text.length ≤ su.capacity) :
    ∃ s', client su c 1 s = some s' := by
  have hne : s.fifo c ≠ [] := by
    intro hnil
    rw [hnil, List.length_nil, Nat.zero_add] at hfull
    exact hfull (htext.trans su.pipe_buf_le)
  simp only [client, (of_writing h hw).1, if_neg hne]
  exact ⟨_, rfl⟩

theorem server_live (hall : ∀ c, su.Complete c) (h : Inv su served current waiting s)
    (hbusy : current ++ waiting ≠ []) : ∃ a s', step su s a = some s' := by
  have hok := h.server
  cases hpc : s.server <;> simp only [hpc, ServerOk] at hok
  case readline stored =>
    obtain ⟨rfl, hstored⟩ := hok
    have hbytes := h.bytes
    rw [hpc, ServerPc.stored, List.append_assoc] at hbytes
    have hmore : s.unread ++ s.serv ≠ [] := by
      intro hnil
      obtain ⟨c, waiting', rfl⟩ := List.exists_cons_of_ne_nil hbusy
      rw [hnil, List.append_nil, List.map_cons, List.flatten_cons,
        request_eq (hall c)] at hbytes
      exact hstored (by rw [hbytes]; simp)
    refine ⟨.server 1, ?_⟩
    simp only [step, server, hpc, readRequest]
    cases hu : s.unread with
    | cons b unread =>
      rw [if_neg (by simp)]
      exact ⟨_, rfl⟩
    | nil =>
      rw [hu, List.nil_append] at hmore
      obtain ⟨b, serv, hserv⟩ := List.exists_cons_of_ne_nil hmore
      rw [if_neg (by simp [hserv, MAXLINE]), hserv]
      exact ⟨_, rfl⟩
  case openFifo pid n ptr =>
    obtain ⟨c, rfl, rfl, -⟩ := hok
    have hopen := pc_of_current h (List.mem_singleton_self c) (by simp [State.Writing, hpc])
    refine ⟨.openFifo c, ?_⟩
    simp only [step, openFifo, hpc, hopen, true_and, true_or, if_true]
    exact ⟨_, rfl⟩
  case openFile c n ptr =>
    refine ⟨.server 0, ?_⟩
    simp only [step, server, hpc]
    split <;> exact ⟨_, rfl⟩
  case error c ptr =>
    obtain ⟨rfl, htext⟩ := hok
    have hlen : (su.answer c).length ≤ MAXLINE := by
      rw [← htext, ← s.buff.full]
      refine (CString.length_cstr_le _).trans ?_
      rw [List.length_drop]
      exact Nat.sub_le _ _
    by_cases hroom : (s.fifo c).length + (su.answer c).length ≤ su.capacity
    · refine ⟨.server 0, ?_⟩
      simp only [step, server, hpc, htext, if_pos hroom]
      exact ⟨_, rfl⟩
    · exact ⟨.client c 1, read_of_full h (by simp [State.Writing, hpc]) hlen hroom⟩
  case copy c rest =>
    subst hok
    by_cases hrest : rest = []
    · refine ⟨.server 0, ?_⟩
      simp only [step, server, hpc, if_pos hrest]
      exact ⟨_, rfl⟩
    · have hone : (rest.take 1).length ≤ 1 := List.length_take_le ..
      by_cases hroom : (s.fifo c).length + (rest.take 1).length ≤ su.capacity
      · refine ⟨.server 1, ?_⟩
        simp only [step, server, hpc, if_neg hrest]
        rw [if_pos ⟨Nat.one_pos, by decide, hroom⟩]
        exact ⟨_, rfl⟩
      · exact ⟨.client c 1, read_of_full h (by simp [State.Writing, hpc]) (hone.trans (by decide)) hroom⟩
  case close c =>
    refine ⟨.server 0, ?_⟩
    simp only [step, server, hpc]
    exact ⟨_, rfl⟩

theorem live (hall : ∀ c, su.Complete c) (h : Inv su served current waiting s)
    (hc : (s.clients c).pc ≠ .exited) : ∃ a s', step su s a = some s' := by
  by_cases hbusy : current ++ waiting = []
  · obtain ⟨rfl, rfl⟩ := List.append_eq_nil_iff.mp hbusy
    have hok := h.clients c
    unfold ClientOk at hok
    refine ⟨.client c 1, ?_⟩
    cases hpc : (s.clients c).pc <;> simp only [hpc] at hok <;> simp only [step, client, hpc]
    case mkfifo | unlink => exact ⟨_, rfl⟩
    case write =>
      have hbytes := h.bytes
      obtain ⟨-, hserv⟩ := List.append_eq_nil_iff.mp hbytes
      have hlen := length_request (hall c)
      have hfits := (hall c).fits
      have hcap := su.pipe_buf_le
      rw [hserv, if_pos (by simp only [List.length_nil]; omega)]
      exact ⟨_, rfl⟩
    case openRd => rcases hok.2.2 with hw | ⟨hw, -⟩ <;> cases hw
    case read =>
      have hnot : ¬ s.Writing c := fun hw => by cases mem_current_of_writing h hw
      by_cases hempty : s.fifo c = []
      · rw [if_pos hempty, if_neg hnot]
        exact ⟨_, rfl⟩
      · rw [if_neg hempty, if_pos ⟨Nat.one_pos, by decide⟩]
        exact ⟨_, rfl⟩
    case exited => exact absurd hpc hc
  · exact server_live hall h hbusy

-- ---------------------------------------------------------------------------
-- Every step gets nearer to the end
-- ---------------------------------------------------------------------------

def clientWeight (su : Setup C) (c : C) (fifo : List UInt8) : ClientPc → Nat
  | .mkfifo => 6 * (su.request c).length + 2 * (su.answer c).length + 6
  | .write => 6 * (su.request c).length + 2 * (su.answer c).length + 5
  | .openRd => 2 * (su.answer c).length + 4
  | .read => fifo.length + 3
  | .unlink => 2
  | .exited => 0

def serverWeight (su : Setup C) : ServerPc C → Nat
  | .readline _ | .undefined => 0
  | .openFifo .. => 5
  | .openFile c _ _ => 2 * (su.answer c).length + 4
  | .error c _ => 2 * (su.answer c).length + 3
  | .copy _ rest => 2 * rest.length + 3
  | .close _ => 1

def clientsWeight (su : Setup C) (fifo : C → List UInt8) (clients : C → Client) : Nat :=
  total id fun c => clientWeight su c (fifo c) (clients c).pc

def weight (su : Setup C) (s : State C) : Nat :=
  6 * (s.unread.length + s.serv.length) + serverWeight su s.server +
    clientsWeight su s.fifo s.clients

theorem clientsWeight_update (su : Setup C) (fifo : C → List UInt8) (clients : C → Client) (c : C)
    (f : List UInt8) (cl : Client) :
    clientsWeight su (update fifo c f) (update clients c cl) +
      clientWeight su c (fifo c) (clients c).pc =
      clientsWeight su fifo clients + clientWeight su c f cl.pc := by
  have hone : (fun d => clientWeight su d (update fifo c f d) (update clients c cl d).pc) =
      update (fun d => clientWeight su d (fifo d) (clients d).pc) c (clientWeight su c f cl.pc) := by
    funext d
    by_cases hd : d = c
    · subst hd
      rw [update_self, update_self, update_self]
    · rw [update_of_ne hd, update_of_ne hd, update_of_ne hd]
  rw [clientsWeight, hone]
  exact total_update id (fun d => clientWeight su d (fifo d) (clients d).pc) c _

theorem clientsWeight_pc (su : Setup C) (fifo : C → List UInt8) (clients : C → Client) (c : C)
    (cl : Client) : clientsWeight su fifo (update clients c cl) +
      clientWeight su c (fifo c) (clients c).pc =
      clientsWeight su fifo clients + clientWeight su c (fifo c) cl.pc := by
  have h := clientsWeight_update su fifo clients c (fifo c) cl
  rwa [update_eq_self] at h

theorem clientsWeight_fifo (su : Setup C) (fifo : C → List UInt8) (clients : C → Client) (c : C)
    (f : List UInt8) : clientsWeight su (update fifo c f) clients +
      clientWeight su c (fifo c) (clients c).pc =
      clientsWeight su fifo clients + clientWeight su c f (clients c).pc := by
  have h := clientsWeight_update su fifo clients c f (clients c)
  rwa [update_eq_self] at h

theorem weight_client (hstep : client su c k s = some s') : weight su s' < weight su s := by
  cases hpc : (s.clients c).pc <;> simp only [client, hpc] at hstep
  case mkfifo =>
    cases hstep
    have hc := clientsWeight_pc su s.fifo s.clients c { s.clients c with
      pc := .write, buff := (s.clients c).buff.put 0 (Svmsg.start (su.pid c) ++ su.typed c ++ [0]) }
    simp only [hpc, clientWeight] at hc
    simp only [weight, State.setClient]
    omega
  case write =>
    simp only [Option.ite_none_right_eq_some, Option.some.injEq] at hstep
    obtain ⟨-, rfl⟩ := hstep
    have hc := clientsWeight_pc su s.fifo s.clients c { s.clients c with pc := .openRd }
    simp only [hpc, clientWeight] at hc
    simp only [weight, State.setClient, List.length_append]
    omega
  case openRd | exited => cases hstep
  case read =>
    split at hstep
    · simp only [Option.ite_none_left_eq_some, Option.some.injEq] at hstep
      obtain ⟨-, rfl⟩ := hstep
      have hc := clientsWeight_pc su s.fifo s.clients c { s.clients c with pc := .unlink }
      simp only [hpc, clientWeight] at hc
      simp only [weight, State.setClient]
      omega
    · rename_i hne
      simp only [Option.ite_none_right_eq_some, Option.some.injEq] at hstep
      obtain ⟨⟨hk, -⟩, rfl⟩ := hstep
      have hpos := List.length_pos_iff.mpr hne
      have hc := clientsWeight_update su s.fifo s.clients c ((s.fifo c).drop k)
        ⟨.read, (s.clients c).buff.put 0 ((s.fifo c).take k),
          (s.clients c).received ++ (s.fifo c).take k,
          (s.clients c).printed ++ [CString.cstr ((s.clients c).buff.put 0 ((s.fifo c).take k)).bytes]⟩
      simp only [hpc, clientWeight, List.length_drop] at hc
      simp only [weight, State.setClient]
      omega
  case unlink =>
    cases hstep
    have hc := clientsWeight_pc su s.fifo s.clients c { s.clients c with pc := .exited }
    simp only [hpc, clientWeight] at hc
    simp only [weight, State.setClient]
    omega

omit [DecidableEq C] [Fintype C] in
theorem serverWeight_pass (buff : Buff) (stored : List UInt8) (b : UInt8) :
    serverWeight su (pass buff stored b).2 ≤ 5 := by
  have hreceived (buff : Buff) (n : Nat) : serverWeight su (received buff n).2 ≤ 5 := by
    simp only [received]
    generalize (if buff.bytes[n - 1]? = some 10 then n - 1 else n) = m
    split
    · exact Nat.zero_le _
    · split
      · exact Nat.zero_le _
      · exact Nat.le_refl _
  simp only [pass]
  split
  · exact hreceived _ _
  · split
    · exact Nat.zero_le _
    · exact hreceived _ _

theorem weight_server (hall : ∀ c, su.Complete c) (h : Inv su served current waiting s)
    (hstep : server su k s = some s') : weight su s' < weight su s := by
  have hok := h.server
  cases hpc : s.server <;> simp only [server, hpc] at hstep <;> simp only [hpc, ServerOk] at hok
  case readline stored =>
    obtain ⟨b, unread, serv, hsplit, rfl⟩ := readRequest_byte hstep
    have hlen := congrArg List.length hsplit
    have hpass : serverWeight su (pass s.buff stored b).2 ≤ 5 := serverWeight_pass s.buff stored b
    simp only [List.length_append, List.length_cons] at hlen
    simp only [weight, hpc, serverWeight] at hpass ⊢
    omega
  case openFifo => cases hstep
  case openFile c n ptr =>
    obtain ⟨rfl, rfl, rfl, hholds⟩ := hok
    rw [cstr_path (hall c) hholds] at hstep
    split at hstep <;> cases hstep <;> simp only [weight, hpc, serverWeight]
    · omega
    · rename_i content hfile
      have hanswer : su.answer c = content := by rw [Setup.answer, hfile]
      rw [hanswer]
      omega
  case error c ptr =>
    obtain ⟨rfl, htext⟩ := hok
    simp only [htext, Option.ite_none_right_eq_some, Option.some.injEq] at hstep
    obtain ⟨-, rfl⟩ := hstep
    have hread := (of_writing (c := c) h (by simp [State.Writing, hpc])).1
    have hc := clientsWeight_fifo su s.fifo s.clients c (s.fifo c ++ su.answer c)
    simp only [hread, clientWeight, List.length_append] at hc
    simp only [weight, hpc, serverWeight]
    omega
  case copy c rest =>
    subst hok
    split at hstep
    · cases hstep
      simp only [weight, hpc, serverWeight]
      omega
    · rename_i hne
      simp only [Option.ite_none_right_eq_some, Option.some.injEq] at hstep
      obtain ⟨⟨hk, -⟩, rfl⟩ := hstep
      have hpos := List.length_pos_iff.mpr hne
      have hread := (of_writing (c := c) h (by simp [State.Writing, hpc])).1
      have hc := clientsWeight_fifo su s.fifo s.clients c (s.fifo c ++ rest.take k)
      simp only [hread, clientWeight, List.length_append, List.length_take] at hc
      simp only [weight, hpc, serverWeight, List.length_drop]
      omega
  case close c =>
    cases hstep
    simp only [weight, hpc, serverWeight]
    omega

theorem weight_openFifo (h : Inv su served current waiting s) (hstep : openFifo su c s = some s') :
    weight su s' < weight su s := by
  unfold openFifo at hstep
  split at hstep
  · rename_i pid n ptr hpc
    simp only [Option.ite_none_right_eq_some, Option.some.injEq] at hstep
    obtain ⟨⟨hpid, -⟩, rfl⟩ := hstep
    have hok := h.server
    rw [hpc] at hok
    obtain ⟨d, rfl, hd, -⟩ := hok
    rw [hd] at hpid
    obtain rfl := su.pid_injective (Int.ofNat.inj hpid)
    have hopen := pc_of_current h (List.mem_singleton_self c) (by simp [State.Writing, hpc])
    have hclient := h.clients c
    simp only [ClientOk, hopen] at hclient
    have hc := clientsWeight_pc su s.fifo s.clients c { s.clients c with pc := .read }
    simp only [hopen, clientWeight, hclient.2.1, List.length_nil] at hc
    simp only [weight, State.setClient, hpc, serverWeight]
    omega
  · cases hstep

theorem weight_step (hall : ∀ c, su.Complete c)
    (h : ∃ served current waiting, Inv su served current waiting s)
    (hstep : step su s a = some s') : weight su s' < weight su s := by
  obtain ⟨served, current, waiting, hinv⟩ := h
  cases a with
  | client c k => exact weight_client hstep
  | server k => exact weight_server hall hinv hstep
  | openFifo c => exact weight_openFifo hinv hstep
  | noFifo =>
    have hnone := noFifo_eq_none hinv
    simp only [step] at hstep
    rw [hnone] at hstep
    cases hstep

-- ---------------------------------------------------------------------------
-- Every client gets its answer
-- ---------------------------------------------------------------------------

omit [DecidableEq C] [Fintype C] in
theorem received_prefix (h : Inv su served current waiting s) (c : C) :
    (s.clients c).received <+: su.answer c := by
  have hok := h.clients c
  unfold ClientOk at hok
  cases hpc : (s.clients c).pc <;> simp only [hpc] at hok
  case mkfifo | write | openRd =>
    rw [hok.1]
    exact List.nil_prefix
  case read =>
    rcases hok with ⟨-, hall⟩ | ⟨-, hall⟩ <;> rw [← hall]
    · exact List.prefix_append _ _
    · rw [List.append_assoc]
      exact List.prefix_append _ _
  case unlink | exited => rw [hok.2.1]

/-- There is a run to the end. -/
theorem exists_finished (hall : ∀ c, su.Complete c) : ∃ s, (system su).Reachable anyStep s ∧
    ∀ c, (s.clients c).pc = .exited ∧ (s.clients c).received = su.answer c := by
  obtain ⟨s, hs, ⟨served, current, waiting, hinv⟩, hexited⟩ :=
    exists_reachable_of_measure (L := system su) (μ := weight su)
      (P := fun s => ∃ served current waiting, Inv su served current waiting s)
      (Q := fun s => ∀ c, (s.clients c).pc = .exited) anyStep
      (fun _ _ _ hs hstep => weight_step hall hs hstep)
      (fun _ _ _ hs _ hstep => inv_step hall hs hstep)
      (fun s ⟨_, _, _, hs⟩ hnot => by
        obtain ⟨c, hc⟩ := not_forall.mp hnot
        obtain ⟨a, s', hstep⟩ := live hall hs hc
        exact ⟨a, s', trivial, hstep⟩)
      .init ⟨[], [], [], inv_init su⟩
  refine ⟨s, hs, fun c => ⟨hexited c, ?_⟩⟩
  have hok := hinv.clients c
  simp only [ClientOk, hexited c] at hok
  exact hok.2.1

/-- Two clients, of whose files there is only one. -/
def two : Setup (Fin 2) where
  pid c := c + 1
  pid_injective _ _ h := Fin.ext (Nat.succ.inj h)
  pid_lt c := Nat.lt_of_le_of_lt c.isLt (by decide)
  stdin c := [97 + UInt8.ofNat c, 10]
  file path := if path = [97] then .ok [1, 2, 3] else .error [69]
  block := ⟨List.replicate MAXLINE 0, List.length_replicate ..⟩
  capacity := MAXLINE
  pipe_buf_le := Nat.le_refl _

theorem two_complete (c : Fin 2) : two.Complete c :=
  ⟨by revert c; decide, by revert c; decide, by revert c; decide⟩

end DdsAuto.FifoCliServ
