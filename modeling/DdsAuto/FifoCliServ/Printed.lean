import DdsAuto.FifoCliServ.Answers

/-!
# What the client prints

`printf` is given the buffer after each `Read`, which puts no NUL behind the bytes it
has stored. The first time, what is behind them is the rest of the client's own request.
-/

namespace DdsAuto.FifoCliServ

open Function CString Lts UnixLib

variable {C : Type} [DecidableEq C] {su : Setup C} {s s' : State C} {c d : C} {k : Nat}

/-- The buffer holds the request as a string. -/
def HoldsRequest (su : Setup C) (c : C) (buff : Buff) : Prop :=
  ∃ tail, buff.bytes = su.request c ++ 0 :: tail

/-- The first text printed: a chunk, and what was in the buffer behind it. -/
def FirstPrinted (su : Setup C) (c : C) (cl : Client) : Prop :=
  ∃ chunk tail, chunk ≠ [] ∧ chunk <+: cl.received ∧
    cl.printed.head? = some (cstr (chunk ++ (su.request c ++ 0 :: tail).drop chunk.length))

def PrintOk (su : Setup C) (c : C) (cl : Client) : Prop :=
  FirstPrinted su c cl ∨
    cl.received = [] ∧ cl.printed = [] ∧ (cl.pc ≠ .mkfifo → HoldsRequest su c cl.buff)

omit [DecidableEq C] in
/-- A chunk stored at the front of the buffer. -/
theorem put_chunk {buff : Buff} {chunk : List UInt8} (h : HoldsRequest su c buff)
    (hle : chunk.length ≤ MAXLINE) : ∃ tail,
    (buff.put 0 chunk).bytes = chunk ++ (su.request c ++ 0 :: tail).drop chunk.length := by
  obtain ⟨tail, htail⟩ := h
  exact ⟨tail, by rw [put_zero buff hle, htail]⟩

omit [DecidableEq C] in
theorem holds_typed (buff : Buff) (hle : (Svmsg.start (su.pid c) ++ su.typed c ++ [0]).length ≤ MAXLINE) :
    HoldsRequest su c (buff.put 0 (Svmsg.start (su.pid c) ++ su.typed c ++ [0])) := by
  rw [HoldsRequest, put_zero buff hle, Setup.request]
  generalize buff.bytes.drop _ = rest
  generalize Svmsg.start (su.pid c) ++ su.typed c = text
  by_cases hzero : 0 ∈ text
  · obtain ⟨front, back, rfl, hfront⟩ := List.eq_append_cons_of_mem hzero
    rw [cstr_append_zero, cstr_of_notMem hfront]
    exact ⟨back ++ [0] ++ rest, by simp⟩
  · rw [cstr_of_notMem hzero]
    exact ⟨rest, by simp⟩

omit [DecidableEq C] in
/-- The pid, the line and their NUL fit. -/
theorem length_typed_le (su : Setup C) (c : C) :
    (Svmsg.start (su.pid c) ++ su.typed c ++ [0]).length ≤ MAXLINE := by
  have hdec := length_decimal_le (n := su.pid c) (by have := su.pid_lt c; omega)
  have hstart : (Svmsg.start (su.pid c)).length ≤ 11 := by
    rw [Svmsg.start, List.length_append, List.length_singleton]
    exact Nat.succ_le_succ hdec
  have htyped : (su.typed c).length ≤ MAXLINE - (Svmsg.start (su.pid c)).length - 1 := by
    unfold Setup.typed fgets
    split
    · exact Nat.zero_le _
    · rename_i line rest heq
      rw [Option.ite_none_left_eq_some, Option.some.injEq] at heq
      have hline := length_readLine_le (MAXLINE - (Svmsg.start (su.pid c)).length - 1) (su.stdin c)
      rwa [heq.2] at hline
  have hmax : MAXLINE = 4096 := rfl
  simp only [List.length_append, List.length_singleton]
  omega

theorem printOk_client (h : PrintOk su c (s.clients c)) (hstep : client su c k s = some s') :
    PrintOk su c (s'.clients c) := by
  -- a step that reads nothing
  have hkeep (pc : ClientPc) (hpc : (s.clients c).pc ≠ .mkfifo) :
      PrintOk su c { s.clients c with pc := pc } :=
    h.imp id fun ⟨hreceived, hprinted, hholds⟩ => ⟨hreceived, hprinted, fun _ => hholds hpc⟩
  cases hpc : (s.clients c).pc <;> simp only [client, hpc] at hstep
  case mkfifo =>
    cases hstep
    simp only [State.setClient, update_self]
    exact h.imp id fun ⟨hreceived, hprinted, _⟩ =>
      ⟨hreceived, hprinted, fun _ => holds_typed _ (length_typed_le su c)⟩
  case write =>
    simp only [Option.ite_none_right_eq_some, Option.some.injEq] at hstep
    obtain ⟨-, rfl⟩ := hstep
    simp only [State.setClient, update_self]
    exact hkeep _ (by simp [hpc])
  case openRd | exited => cases hstep
  case read =>
    split at hstep
    · simp only [Option.ite_none_left_eq_some, Option.some.injEq] at hstep
      obtain ⟨-, rfl⟩ := hstep
      simp only [State.setClient, update_self]
      exact hkeep _ (by simp [hpc])
    · rename_i hne
      simp only [Option.ite_none_right_eq_some, Option.some.injEq] at hstep
      obtain ⟨⟨hk, hmax⟩, rfl⟩ := hstep
      simp only [State.setClient, update_self]
      refine .inl ?_
      rcases h with ⟨chunk, tail, hchunk, hpre, hhead⟩ | ⟨hreceived, hprinted, hholds⟩
      · refine ⟨chunk, tail, hchunk, hpre.trans (List.prefix_append _ _), ?_⟩
        rw [List.head?_append, hhead]
        rfl
      · have hfits : ((s.fifo c).take k).length ≤ MAXLINE := (List.length_take_le ..).trans hmax
        obtain ⟨tail, htail⟩ := put_chunk (hholds (by simp [hpc])) hfits
        refine ⟨(s.fifo c).take k, tail, ?_, ?_, ?_⟩
        · rw [Ne, List.take_eq_nil_iff, not_or]
          exact ⟨Nat.ne_of_gt hk, hne⟩
        · rw [hreceived, List.nil_append]
        · rw [hprinted, htail]
          rfl
  case unlink =>
    cases hstep
    simp only [State.setClient, update_self]
    exact hkeep _ (by simp [hpc])

theorem client_other (hstep : client su c k s = some s') (hd : d ≠ c) :
    s'.clients d = s.clients d := by
  unfold client at hstep
  cases hpc : (s.clients c).pc <;> simp only [hpc] at hstep
  all_goals
    repeat' split at hstep
    all_goals cases hstep
    all_goals exact update_of_ne hd ..

theorem server_clients (hstep : server su k s = some s') :
    s'.clients = s.clients := by
  cases hpc : s.server <;> simp only [server, hpc] at hstep
  case readline stored =>
    obtain ⟨b, unread, serv, -, rfl⟩ := readRequest_byte hstep
    rfl
  all_goals
    repeat' split at hstep
    all_goals cases hstep
    all_goals rfl

variable [Fintype C] {a : Label C}

theorem printOk_step (h : ∀ d, PrintOk su d (s.clients d)) (hstep : step su s a = some s') (d : C) :
    PrintOk su d (s'.clients d) := by
  cases a with
  | client c k =>
    by_cases hd : d = c
    · subst hd
      exact printOk_client (h d) hstep
    · rw [client_other hstep hd]
      exact h d
  | server k =>
    rw [server_clients hstep]
    exact h d
  | openFifo c =>
    simp only [step, openFifo] at hstep
    split at hstep
    · simp only [Option.ite_none_right_eq_some, Option.some.injEq] at hstep
      obtain ⟨⟨-, hpc⟩, rfl⟩ := hstep
      by_cases hd : d = c
      · subst hd
        simp only [State.setClient, update_self]
        rcases h d with hchunk | ⟨hreceived, hprinted, hholds⟩
        · exact .inl hchunk
        · refine .inr ⟨hreceived, hprinted, fun _ => hholds ?_⟩
          rcases hpc with hpc | hpc <;> simp [hpc]
      · simp only [State.setClient, update_of_ne hd]
        exact h d
    · cases hstep
  | noFifo =>
    simp only [step, noFifo] at hstep
    repeat' split at hstep
    all_goals cases hstep
    exact h d

theorem printOk_of_reachable (h : (system su).Reachable anyStep s) (c : C) :
    PrintOk su c (s.clients c) :=
  h.invariant (P := fun s => ∀ c, PrintOk su c (s.clients c))
    (fun _ => .inr ⟨rfl, rfl, fun hpc => absurd rfl hpc⟩)
    (fun _ _ _ hs _ hstep => printOk_step hs hstep) c

end DdsAuto.FifoCliServ
