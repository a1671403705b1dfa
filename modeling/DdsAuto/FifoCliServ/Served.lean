import DdsAuto.FifoCliServ.Mains
import DdsAuto.Lib.Threads

/-!
# Every client gets its own file

Where each client's line of input has a newline, no NUL in front of it, and fits in the
buffer behind the pid, the server finds the requests again one by one, however the
`read`s cut the bytes, and each client gets its answer: the file, or the text that
it could not be opened. No run gets stuck before all clients have ended, and none
is endless.

`served`, `current` and `waiting` below are the clients whose requests have been
answered, is being answered, and are still on the way, in the order in which they
were written.
-/

namespace DdsAuto.FifoCliServ

open Function CInt CString Memory UnixLib Threads

variable {C : Type} {su : Setup C} {s s' : State C} {c d : C} {k n : Nat}
variable {buff : Buff} {pre tail text : List UInt8}

namespace Setup

/-- The line that is typed, without its newline. -/
def path (su : Setup C) (c : C) : List UInt8 := (su.stdin c).takeWhile (· ≠ 10)

/-- The length of the request without its newline. -/
def count (su : Setup C) (c : C) : Nat := (Svmsg.start (su.pid c)).length + (su.path c).length

structure Complete (su : Setup C) (c : C) : Prop where
  newline : 10 ∈ su.stdin c
  nul : 0 ∉ su.path c
  fits : su.count c + 1 < MAXLINE

/-- What the client should receive. -/
def answer (su : Setup C) (c : C) : List UInt8 :=
  match su.file (su.path c) with
  | .error strerror => su.path c ++ (Svmsg.cantOpen (cstr strerror)).take (MAXLINE - su.count c - 1)
  | .ok content => content

end Setup

-- ---------------------------------------------------------------------------
-- The request
-- ---------------------------------------------------------------------------

theorem readLine_append_newline {front rest : List UInt8} (h : 10 ∉ front)
    (hcount : front.length < n) : readLine n (front ++ 10 :: rest) = (front ++ [10], rest) := by
  induction front generalizing n with
  | nil =>
    obtain ⟨n, rfl⟩ := Nat.exists_eq_add_one_of_ne_zero (Nat.ne_of_gt hcount)
    rfl
  | cons b front ih =>
    rw [List.length_cons] at hcount
    obtain ⟨n, rfl⟩ := Nat.exists_eq_add_one_of_ne_zero (Nat.ne_of_gt (Nat.zero_lt_of_lt hcount))
    rw [List.mem_cons, not_or] at h
    obtain ⟨hb, hfront⟩ := h
    rw [List.cons_append, readLine, if_neg (Ne.symm hb), ih hfront (Nat.lt_of_succ_lt_succ hcount)]
    rfl

theorem newline_notMem_path (su : Setup C) (c : C) : 10 ∉ su.path c := by
  intro h
  have hne := List.mem_takeWhile_imp h
  simp at hne

theorem typed_eq (h : su.Complete c) : su.typed c = su.path c ++ [10] := by
  obtain ⟨front, rest, heq, hfront⟩ := List.eq_append_cons_of_mem h.newline
  have hpath : su.path c = front := by
    rw [Setup.path, heq, List.takeWhile_append_of_pos (ne_of_notMem hfront),
      List.takeWhile_cons_of_neg (by simp), List.append_nil]
  have hfits := h.fits
  rw [Setup.count, hpath] at hfits
  have hline : readLine (MAXLINE - (Svmsg.start (su.pid c)).length - 1) (front ++ 10 :: rest) =
      (front ++ [10], rest) := readLine_append_newline hfront (by omega)
  rw [Setup.typed, heq, hpath, fgets, if_neg (by simp), hline]

theorem zero_notMem_start (n : Nat) : 0 ∉ Svmsg.start n := by
  intro h
  rcases List.mem_append.mp h with hdec | hblank
  · exact Svmsg.notMem_decimal (by decide) n hdec
  · simp at hblank

theorem newline_notMem_start (n : Nat) : 10 ∉ Svmsg.start n := by
  intro h
  rcases List.mem_append.mp h with hdec | hblank
  · exact Svmsg.notMem_decimal (by decide) n hdec
  · simp at hblank

/-- The request is a line, and its newline is the only one in it. -/
theorem request_eq (h : su.Complete c) :
    su.request c = Svmsg.start (su.pid c) ++ su.path c ++ [10] := by
  rw [Setup.request, typed_eq h, cstr_of_notMem, List.append_assoc]
  intro hmem
  rcases List.mem_append.mp hmem with hstart | htyped
  · exact zero_notMem_start _ hstart
  · rcases List.mem_append.mp htyped with hpath | hnl
    · exact h.nul hpath
    · simp at hnl

theorem length_request (h : su.Complete c) : (su.request c).length = su.count c + 1 := by
  rw [request_eq h, List.length_append, List.length_append]
  rfl

/-- Where the bytes up to the first newline end, the first request does. -/
theorem request_of_newline (hall : ∀ c, su.Complete c) {waiting : List C} {stored rest : List UInt8}
    (h : stored ++ 10 :: rest = (waiting.map su.request).flatten) (hstored : 10 ∉ stored) :
    ∃ c waiting', waiting = c :: waiting' ∧ stored = Svmsg.start (su.pid c) ++ su.path c ∧
      rest = (waiting'.map su.request).flatten := by
  cases waiting with
  | nil => simp at h
  | cons c waiting =>
    rw [List.map_cons, List.flatten_cons, request_eq (hall c), List.append_assoc,
      List.singleton_append] at h
    have hline : 10 ∉ Svmsg.start (su.pid c) ++ su.path c := fun hmem =>
      (List.mem_append.mp hmem).elim (newline_notMem_start _) (newline_notMem_path su c)
    have htake := congrArg (List.takeWhile (· ≠ (10 : UInt8))) h
    rw [List.takeWhile_append_of_pos (ne_of_notMem hstored),
      List.takeWhile_append_of_pos (ne_of_notMem hline), List.takeWhile_cons_of_neg (by simp),
      List.takeWhile_cons_of_neg (by simp), List.append_nil, List.append_nil] at htake
    subst htake
    rw [List.append_right_inj, List.cons.injEq] at h
    exact ⟨c, waiting, rfl, rfl, h.2⟩

/-- Before its newline, a request is shorter than the buffer. -/
theorem length_lt_of_prefix (hall : ∀ c, su.Complete c) {waiting : List C} {stored rest : List UInt8}
    {b : UInt8} (h : stored ++ b :: rest = (waiting.map su.request).flatten) (hstored : 10 ∉ stored)
    (hb : b ≠ 10) : (stored ++ [b]).length + 1 < MAXLINE := by
  cases waiting with
  | nil => simp at h
  | cons c waiting =>
    rw [List.map_cons, List.flatten_cons, List.append_cons] at h
    have hfits := (hall c).fits
    have hlen := length_request (hall c)
    by_contra hlong
    -- then the newline of the request is among the bytes stored
    have hpre : su.request c <+: stored ++ [b] := by
      refine List.prefix_of_prefix_length_le (h ▸ List.prefix_append _ _)
        (List.prefix_append (stored ++ [b]) rest) ?_
      omega
    have hnl : 10 ∈ su.request c := by
      rw [request_eq (hall c)]
      simp
    rcases List.mem_append.mp (hpre.subset hnl) with hmem | hmem
    · exact hstored hmem
    · exact hb (List.mem_singleton.mp hmem).symm

-- ---------------------------------------------------------------------------
-- The server's buffer
-- ---------------------------------------------------------------------------

@[simp] theorem bytes_put (buff : Buff) (off : Nat) (src : List UInt8) :
    (buff.put off src).bytes = store buff.bytes off src := rfl

theorem put_append (h : buff.bytes = pre ++ tail) (hle : text.length ≤ tail.length) :
    (buff.put pre.length text).bytes = pre ++ text ++ tail.drop text.length := by
  rw [bytes_put, h, store_append pre tail text hle]

theorem put_zero (buff : Buff) (hle : text.length ≤ MAXLINE) :
    (buff.put 0 text).bytes = text ++ buff.bytes.drop text.length := by
  have hall : buff.bytes = [] ++ buff.bytes := rfl
  exact put_append hall (hle.trans (Nat.le_of_eq buff.full.symm))

/-- The pid and the pathname are strings of the buffer. -/
def HoldsPath (su : Setup C) (c : C) (buff : Buff) : Prop :=
  ∃ tail, buff.bytes = decimal (su.pid c) ++ 0 :: (su.path c ++ 0 :: tail)

/-- `received` on a request and its newline. -/
theorem received_request (h : su.Complete c) (htail :
    buff.bytes = Svmsg.start (su.pid c) ++ su.path c ++ 10 :: tail) :
    ∃ buff', received (C := C) buff (su.count c + 1) =
      (buff', .openFifo (su.pid c) (su.count c) (Svmsg.start (su.pid c)).length) ∧
      HoldsPath su c buff' := by
  have hlen : (Svmsg.start (su.pid c) ++ su.path c).length = su.count c := List.length_append
  have hnl : buff.bytes[su.count c]? = some 10 := by
    rw [htail, ← hlen, List.getElem?_append_right (Nat.le_refl _), Nat.sub_self]
    rfl
  have hmax : su.count c ≠ MAXLINE := by
    have := h.fits
    omega
  have hnul : (buff.put (su.count c) [0]).bytes =
      decimal (su.pid c) ++ 32 :: su.path c ++ 0 :: tail := by
    have hone : ([0] : List UInt8).length ≤ (10 :: tail).length := by simp
    have hput := put_append htail hone
    rw [hlen] at hput
    rw [hput, Svmsg.start]
    simp
  have hparse : Svmsg.parse (decimal (su.pid c) ++ 32 :: su.path c) =
      .ok (decimal (su.pid c), su.path c) :=
    Svmsg.parse_eq_ok_iff.mpr
      ⟨rfl, Svmsg.notMem_decimal (by decide) _, Svmsg.notMem_decimal (by decide) _⟩
  have hblank : Svmsg.strchr (buff.put (su.count c) [0]).bytes 32 =
      some (decimal (su.pid c)).length := by
    rw [hnul, Svmsg.strchr_append_zero, Svmsg.strchr_of_parse hparse]
  have hcut : ((buff.put (su.count c) [0]).put (decimal (su.pid c)).length [0]).bytes =
      decimal (su.pid c) ++ 0 :: (su.path c ++ 0 :: tail) := by
    have hblanked : (buff.put (su.count c) [0]).bytes =
        decimal (su.pid c) ++ 32 :: (su.path c ++ 0 :: tail) := by
      rw [hnul, List.append_assoc]
      rfl
    have hone : ([0] : List UInt8).length ≤ (32 :: (su.path c ++ 0 :: tail)).length := by simp
    rw [put_append hblanked hone]
    simp
  refine ⟨(buff.put (su.count c) [0]).put (decimal (su.pid c)).length [0], ?_, tail, hcut⟩
  have hstart : (Svmsg.start (su.pid c)).length = (decimal (su.pid c)).length + 1 :=
    List.length_append
  have hpid :
      toInt (atol (cstr ((buff.put (su.count c) [0]).put (decimal (su.pid c)).length [0]).bytes)) =
      su.pid c := by
    rw [hcut, cstr_append_zero, cstr_of_notMem (Svmsg.notMem_decimal (by decide) _), atol_decimal,
      toInt_natCast _ (su.pid_lt c)]
  simp only [received, Nat.add_sub_cancel, if_pos hnl, if_neg hmax, hblank, hpid, hstart]

theorem cstr_path (h : su.Complete c) (hold : HoldsPath su c buff) :
    cstr (buff.bytes.drop (Svmsg.start (su.pid c)).length) = su.path c := by
  obtain ⟨tail, htail⟩ := hold
  have hsplit : buff.bytes = (decimal (su.pid c) ++ [0]) ++ (su.path c ++ 0 :: tail) := by
    rw [htail]
    simp
  have hstart : (Svmsg.start (su.pid c)).length = (decimal (su.pid c) ++ [(0 : UInt8)]).length := by
    simp [Svmsg.start]
  rw [hsplit, hstart, List.drop_left, cstr_append_zero, cstr_of_notMem h.nul]

/-- The text of the error stands behind the pathname. -/
theorem cstr_error (h : su.Complete c) (hold : HoldsPath su c buff) {strerror : List UInt8}
    (hfile : su.file (su.path c) = .error strerror) :
    cstr ((buff.put (su.count c) ((Svmsg.cantOpen (cstr strerror)).take
      (MAXLINE - su.count c - 1) ++ [0])).bytes.drop (Svmsg.start (su.pid c)).length) =
      su.answer c := by
  obtain ⟨tail, htail⟩ := hold
  have hfits := h.fits
  let text := (Svmsg.cantOpen (cstr strerror)).take (MAXLINE - su.count c - 1)
  have hlen : (decimal (su.pid c) ++ 0 :: su.path c).length = su.count c := by
    rw [Setup.count, Svmsg.start]
    simp
    omega
  have hroom : (text ++ [0]).length ≤ (0 :: tail).length := by
    have hfull := buff.full
    rw [htail, ← List.cons_append, ← List.append_assoc, List.length_append, hlen] at hfull
    simp only [text, List.length_append, List.length_take, List.length_singleton]
    omega
  have hsplit : buff.bytes = decimal (su.pid c) ++ 0 :: su.path c ++ 0 :: tail := by
    rw [htail]
    simp
  have hput := put_append hsplit hroom
  rw [hlen] at hput
  have hstart : (Svmsg.start (su.pid c)).length = (decimal (su.pid c) ++ [(0 : UInt8)]).length := by
    simp [Svmsg.start]
  have hnul : 0 ∉ su.path c ++ text := by
    intro hmem
    rcases List.mem_append.mp hmem with hpath | htext
    · exact h.nul hpath
    · have hin := (List.take_prefix _ _).subset htext
      simp only [Svmsg.cantOpen, List.mem_append] at hin
      rcases hin with (hlit | hstr) | hnl
      · simp at hlit
      · exact notMem_cstr _ hstr
      · simp at hnl
  have hsplit : (buff.put (su.count c) (text ++ [0])).bytes =
      (decimal (su.pid c) ++ [0]) ++ (su.path c ++ text ++ 0 :: (0 :: tail).drop (text ++ [0]).length) := by
    rw [hput]
    simp
  rw [hsplit, hstart, List.drop_left, cstr_append_zero, cstr_of_notMem hnul, Setup.answer, hfile]

-- ---------------------------------------------------------------------------
-- The invariant
-- ---------------------------------------------------------------------------

/-- What `readline` has taken of a request. -/
def ServerPc.stored : ServerPc C → List UInt8
  | .readline stored => stored
  | _ => []

/-- What the server has still to write. -/
def ServerPc.todo (su : Setup C) : ServerPc C → List UInt8
  | .openFile c _ _ | .error c _ => su.answer c
  | .copy _ rest => rest
  | _ => []

def ServerOk (su : Setup C) (current : List C) (buff : Buff) : ServerPc C → Prop
  | .readline stored => current = [] ∧ 10 ∉ stored
  | .openFifo pid n ptr => ∃ c, current = [c] ∧ pid = su.pid c ∧ n = su.count c ∧
      ptr = (Svmsg.start (su.pid c)).length ∧ HoldsPath su c buff
  | .openFile c n ptr => current = [c] ∧ n = su.count c ∧
      ptr = (Svmsg.start (su.pid c)).length ∧ HoldsPath su c buff
  | .error c ptr => current = [c] ∧ cstr (buff.bytes.drop ptr) = su.answer c
  | .copy c _ | .close c => current = [c]
  | .undefined => False

/-- Sent, and the server has not come to it. -/
def Opening (current waiting : List C) (s : State C) (c : C) : Prop :=
  c ∈ waiting ∨ c ∈ current ∧ ¬ s.Writing c

def ClientOk (su : Setup C) (served current waiting : List C) (s : State C) (c : C) : Prop :=
  match (s.clients c).pc with
  | .mkfifo | .write => (s.clients c).received = [] ∧ s.fifo c = [] ∧
      c ∉ served ++ current ++ waiting
  | .openRd => (s.clients c).received = [] ∧ s.fifo c = [] ∧ Opening current waiting s c
  | .read => c ∈ served ∧ (s.clients c).received ++ s.fifo c = su.answer c ∨
      s.Writing c ∧ (s.clients c).received ++ s.fifo c ++ s.server.todo su = su.answer c
  | .unlink | .exited => c ∈ served ∧ (s.clients c).received = su.answer c ∧ s.fifo c = []

structure Inv (su : Setup C) (served current waiting : List C) (s : State C) : Prop where
  bytes : s.server.stored ++ s.unread ++ s.serv = (waiting.map su.request).flatten
  server : ServerOk su current s.buff s.server
  nodup : (served ++ current ++ waiting).Nodup
  clients : ∀ c, ClientOk su served current waiting s c

section

variable {served current waiting served' current' waiting' : List C}

/-- A step of others. -/
theorem ClientOk.other (h : ClientOk su served current waiting s d)
    (hcl : s'.clients d = s.clients d) (hfifo : s'.fifo d = s.fifo d)
    (hserved : d ∈ served → d ∈ served')
    (hsent : d ∉ served ++ current ++ waiting → d ∉ served' ++ current' ++ waiting')
    (hopening : Opening current waiting s d → Opening current' waiting' s' d)
    (hwriting : s.Writing d → s'.Writing d ∧ s'.server.todo su = s.server.todo su) :
    ClientOk su served' current' waiting' s' d := by
  unfold ClientOk at h ⊢
  rw [hcl, hfifo]
  cases hpc : (s.clients d).pc <;> simp only [hpc] at h ⊢
  case mkfifo | write => exact ⟨h.1, h.2.1, hsent h.2.2⟩
  case openRd => exact ⟨h.1, h.2.1, hopening h.2.2⟩
  case read =>
    rcases h with ⟨hs, hall⟩ | ⟨hw, hall⟩
    · exact .inl ⟨hserved hs, hall⟩
    · obtain ⟨hw', htodo⟩ := hwriting hw
      exact .inr ⟨hw', by rw [htodo]; exact hall⟩
  case unlink | exited => exact ⟨hserved h.1, h.2⟩

theorem mem_current_of_writing (h : Inv su served current waiting s) (hw : s.Writing c) :
    c ∈ current := by
  have hok := h.server
  cases hpc : s.server <;> simp only [State.Writing, hpc] at hw <;> subst hw <;>
    simp only [hpc, ServerOk] at hok <;> simp [hok]

theorem notMem_served_of_current (h : Inv su served current waiting s) (hc : c ∈ current) :
    c ∉ served :=
  fun hs => List.disjoint_of_nodup_append (List.nodup_append.mp h.nodup).1 hs hc

theorem notMem_waiting_of_current (h : Inv su served current waiting s) (hc : c ∈ current) :
    c ∉ waiting :=
  fun hw => List.disjoint_of_nodup_append h.nodup (List.mem_append_right _ hc) hw

theorem pc_of_current (h : Inv su served current waiting s) (hc : c ∈ current)
    (hw : ¬ s.Writing c) : (s.clients c).pc = .openRd := by
  have hok := h.clients c
  unfold ClientOk at hok
  cases hpc : (s.clients c).pc <;> simp only [hpc] at hok
  case mkfifo | write =>
    exact absurd (List.mem_append_left _ (List.mem_append_right _ hc)) hok.2.2
  case openRd => rfl
  case read =>
    rcases hok with ⟨hs, -⟩ | ⟨hw', -⟩
    · exact absurd hs (notMem_served_of_current h hc)
    · exact absurd hw' hw
  case unlink | exited => exact absurd hok.1 (notMem_served_of_current h hc)

/-- The client that is being answered reads. -/
theorem of_writing (h : Inv su served current waiting s) (hw : s.Writing c) :
    (s.clients c).pc = .read ∧
    (s.clients c).received ++ s.fifo c ++ s.server.todo su = su.answer c := by
  have hc := mem_current_of_writing h hw
  have hok := h.clients c
  unfold ClientOk at hok
  cases hpc : (s.clients c).pc <;> simp only [hpc] at hok
  case mkfifo | write =>
    exact absurd (List.mem_append_left _ (List.mem_append_right _ hc)) hok.2.2
  case openRd =>
    rcases hok.2.2 with hwait | ⟨-, hnot⟩
    · exact absurd hwait (notMem_waiting_of_current h hc)
    · exact absurd hw hnot
  case read =>
    rcases hok with ⟨hs, -⟩ | ⟨-, hall⟩
    · exact absurd hs (notMem_served_of_current h hc)
    · exact ⟨rfl, hall⟩
  case unlink | exited => exact absurd hok.1 (notMem_served_of_current h hc)

theorem inv_init (su : Setup C) : Inv su [] [] [] (.init su) where
  bytes := rfl
  server := ⟨rfl, List.not_mem_nil⟩
  nodup := List.nodup_nil
  clients _ := ⟨rfl, rfl, List.not_mem_nil⟩

-- ---------------------------------------------------------------------------
-- The clients' steps
-- ---------------------------------------------------------------------------

variable [DecidableEq C]

/-- A step of one client that the server does not see. -/
theorem Inv.setClient (h : Inv su served current waiting s) {cl : Client} {fifo : List UInt8}
    (hc : ClientOk su served current waiting
      { s.setClient c cl with fifo := update s.fifo c fifo } c) :
    Inv su served current waiting { s.setClient c cl with fifo := update s.fifo c fifo } where
  bytes := h.bytes
  server := h.server
  nodup := h.nodup
  clients d := by
    by_cases hd : d = c
    · subst hd
      exact hc
    · exact (h.clients d).other (update_of_ne hd ..) (update_of_ne hd ..) id id id
        fun hw => ⟨hw, rfl⟩

theorem Inv.setPc (h : Inv su served current waiting s) {cl : Client}
    (hc : ClientOk su served current waiting (s.setClient c cl) c) :
    Inv su served current waiting (s.setClient c cl) := by
  have hkeep : s.fifo = update s.fifo c (s.fifo c) := (update_eq_self ..).symm
  have hset : Inv su served current waiting
      { s.setClient c cl with fifo := update s.fifo c (s.fifo c) } :=
    h.setClient (by rwa [← hkeep])
  rwa [← hkeep] at hset

theorem inv_write (h : Inv su served current waiting s) (hpc : (s.clients c).pc = .write) :
    Inv su served current (waiting ++ [c])
      { s.setClient c { s.clients c with pc := .openRd } with serv := s.serv ++ su.request c } := by
  have hok := h.clients c
  simp only [ClientOk, hpc] at hok
  obtain ⟨hreceived, hfifo, hnew⟩ := hok
  refine ⟨?_, h.server, ?_, fun d => ?_⟩
  · have hbytes := h.bytes
    simp only [State.setClient, List.map_append, List.flatten_append, ← hbytes]
    simp
  · rw [← List.append_assoc]
    refine List.nodup_append.mpr ⟨h.nodup, List.nodup_singleton c, fun a ha b hb => ?_⟩
    rw [List.mem_singleton.mp hb]
    rintro rfl
    exact hnew ha
  · by_cases hd : d = c
    · subst hd
      simp only [ClientOk, State.setClient, update_self]
      exact ⟨hreceived, hfifo, .inl (by simp)⟩
    · refine (h.clients d).other (update_of_ne hd ..) rfl id ?_ ?_ fun hw => ⟨hw, rfl⟩
      · simp [hd]
      · rintro (hw | hw)
        · exact .inl (List.mem_append_left _ hw)
        · exact .inr hw

theorem inv_client (h : Inv su served current waiting s) (hstep : client su c k s = some s') :
    ∃ waiting, Inv su served current waiting s' := by
  have hok := h.clients c
  unfold ClientOk at hok
  cases hpc : (s.clients c).pc <;> simp only [client, hpc] at hstep hok
  case mkfifo =>
    cases hstep
    refine ⟨waiting, h.setPc ?_⟩
    simp only [ClientOk, State.setClient, update_self]
    exact hok
  case write =>
    simp only [Option.ite_none_right_eq_some, Option.some.injEq] at hstep
    obtain ⟨-, rfl⟩ := hstep
    exact ⟨_, inv_write h hpc⟩
  case openRd => cases hstep
  case read =>
    split at hstep
    · rename_i hempty
      simp only [Option.ite_none_left_eq_some, Option.some.injEq] at hstep
      obtain ⟨hw, rfl⟩ := hstep
      obtain ⟨hs, hall⟩ := hok.resolve_right fun h => hw h.1
      rw [hempty, List.append_nil] at hall
      refine ⟨waiting, h.setPc ?_⟩
      simp only [ClientOk, State.setClient, update_self]
      exact ⟨hs, hall, hempty⟩
    · simp only [Option.ite_none_right_eq_some, Option.some.injEq] at hstep
      obtain ⟨-, rfl⟩ := hstep
      refine ⟨waiting, h.setClient ?_⟩
      have hmove : (s.clients c).received ++ (s.fifo c).take k ++ (s.fifo c).drop k =
          (s.clients c).received ++ s.fifo c := by
        rw [List.append_assoc, List.take_append_drop]
      simp only [ClientOk, State.setClient, update_self, hmove]
      exact hok
  case unlink =>
    cases hstep
    refine ⟨waiting, h.setPc ?_⟩
    simp only [ClientOk, State.setClient, update_self]
    exact hok
  case exited => cases hstep

-- ---------------------------------------------------------------------------
-- The server's steps
-- ---------------------------------------------------------------------------

omit [DecidableEq C] in
/-- A byte of the FIFO, however many a `read` has fetched. -/
theorem readRequest_byte {stored : List UInt8} (hstep : readRequest s stored k = some s') :
    ∃ b unread serv, s.unread ++ s.serv = b :: (unread ++ serv) ∧
      s' = { s with
        serv := serv
        unread := unread
        server := (pass s.buff stored b).2
        buff := (pass (C := C) s.buff stored b).1 } := by
  unfold readRequest at hstep
  cases hu : s.unread with
  | cons b unread =>
    rw [if_neg (by simp [hu])] at hstep
    simp only [myRead, hu, reduceCtorEq, if_false, Option.some.injEq] at hstep
    exact ⟨b, unread, s.serv, rfl, hstep.symm⟩
  | nil =>
    simp only [hu, true_and, Option.ite_none_left_eq_some, not_not, if_true] at hstep
    obtain ⟨⟨hk, -, hne⟩, hstep⟩ := hstep
    obtain ⟨b, serv, hserv⟩ := List.exists_cons_of_ne_nil hne
    obtain ⟨k, rfl⟩ := Nat.exists_eq_add_one_of_ne_zero (Nat.ne_of_gt hk)
    rw [hserv, List.take_succ_cons, List.drop_succ_cons] at hstep
    simp only [myRead, again, Option.some.injEq] at hstep
    refine ⟨b, serv.take k, serv.drop k, ?_, hstep.symm⟩
    rw [hserv, List.take_append_drop]
    rfl

omit [DecidableEq C] in
/-- `pass` at the newline of a request. -/
theorem pass_newline (hc : su.Complete c) (buff : Buff) : ∃ buff',
    pass (C := C) buff (Svmsg.start (su.pid c) ++ su.path c) 10 =
      (buff', .openFifo (su.pid c) (su.count c) (Svmsg.start (su.pid c)).length) ∧
      HoldsPath su c buff' := by
  have hlen : (Svmsg.start (su.pid c) ++ su.path c ++ [10]).length = su.count c + 1 := by
    rw [List.length_append, List.length_append]
    rfl
  have hfits : (Svmsg.start (su.pid c) ++ su.path c ++ [10] ++ [0]).length ≤ MAXLINE := by
    rw [List.length_append, hlen]
    exact hc.fits
  have hput := put_zero buff hfits
  have hshape (tail : List UInt8) : Svmsg.start (su.pid c) ++ su.path c ++ [10] ++ [0] ++ tail =
      Svmsg.start (su.pid c) ++ su.path c ++ 10 :: (0 :: tail) := by simp
  rw [hshape] at hput
  rw [pass]
  simp only [if_true, hlen]
  exact received_request hc hput

variable [Fintype C]

omit [DecidableEq C] [Fintype C] in
theorem inv_readRequest (hall : ∀ c, su.Complete c) (h : Inv su served current waiting s)
    {stored : List UInt8} (hpc : s.server = .readline stored)
    (hstep : readRequest s stored k = some s') :
    ∃ current waiting, Inv su served current waiting s' := by
  obtain ⟨b, unread, serv, hsplit, rfl⟩ := readRequest_byte hstep
  have hok := h.server
  rw [hpc] at hok
  obtain ⟨rfl, hstored⟩ := hok
  have hbytes := h.bytes
  rw [hpc, ServerPc.stored, List.append_assoc, hsplit] at hbytes
  have hnot (d : C) : ¬ s.Writing d := by simp [State.Writing, hpc]
  by_cases hb : b = 10
  · subst hb
    obtain ⟨c, waiting', rfl, rfl, hrest⟩ := request_of_newline hall hbytes hstored
    obtain ⟨buff', hpass, hholds⟩ := pass_newline (hall c) s.buff
    rw [hpass]
    refine ⟨[c], waiting', hrest, ⟨c, rfl, rfl, rfl, rfl, hholds⟩, ?_, fun d => ?_⟩
    · simpa using h.nodup
    · refine (h.clients d).other rfl rfl id ?_ ?_ fun hw => absurd hw (hnot d)
      · simp
      · rintro (hw | ⟨hw, -⟩)
        · rcases List.mem_cons.mp hw with rfl | hw
          · exact .inr ⟨List.mem_singleton_self _, id⟩
          · exact .inl hw
        · cases hw
  · have hlong := length_lt_of_prefix hall hbytes hstored hb
    have hpass : pass (C := C) s.buff stored b = (s.buff, .readline (stored ++ [b])) := by
      simp only [pass, if_neg hb, if_pos hlong]
    rw [hpass]
    refine ⟨[], waiting, ?_, ⟨rfl, ?_⟩, h.nodup, fun d => ?_⟩
    · rw [ServerPc.stored, ← hbytes]
      simp
    · rw [List.mem_append, List.mem_singleton]
      exact fun hmem => hmem.elim hstored (fun heq => hb heq.symm)
    · refine (h.clients d).other rfl rfl id id ?_ fun hw => absurd hw (hnot d)
      rintro (hw | ⟨hw, -⟩)
      · exact .inl hw
      · cases hw

omit [DecidableEq C] in
/-- The FIFO of a request is there. -/
theorem noFifo_eq_none (h : Inv su served current waiting s) : noFifo su s = none := by
  unfold noFifo
  split
  · rename_i pid n ptr hpc
    have hok := h.server
    rw [hpc] at hok
    obtain ⟨c, rfl, rfl, -⟩ := hok
    have hopen := pc_of_current h (List.mem_singleton_self c) (by simp [State.Writing, hpc])
    have hfifo : HasFifo su s (su.pid c) := ⟨c, rfl, by simp [hopen]⟩
    rw [if_pos hfifo]
  · rfl

omit [Fintype C] in
theorem inv_openFifo (h : Inv su served current waiting s) (hstep : openFifo su c s = some s') :
    Inv su served current waiting s' := by
  unfold openFifo at hstep
  split at hstep
  · rename_i pid n ptr hpc
    simp only [Option.ite_none_right_eq_some, Option.some.injEq] at hstep
    obtain ⟨⟨hpid, -⟩, rfl⟩ := hstep
    have hok := h.server
    rw [hpc] at hok
    obtain ⟨d, rfl, hd, rfl, rfl, hholds⟩ := hok
    rw [hd] at hpid
    obtain rfl := su.pid_injective (Int.ofNat.inj hpid)
    have hnot (e : C) : ¬ s.Writing e := by simp [State.Writing, hpc]
    have hclient := h.clients c
    simp only [ClientOk, pc_of_current h (List.mem_singleton_self c) (hnot c)] at hclient
    obtain ⟨hreceived, hfifo, -⟩ := hclient
    have hbytes := h.bytes
    rw [hpc] at hbytes
    refine ⟨hbytes, ⟨rfl, rfl, rfl, hholds⟩, h.nodup, fun e => ?_⟩
    by_cases he : e = c
    · subst he
      simp only [ClientOk, State.setClient, update_self, hreceived, hfifo]
      exact .inr ⟨rfl, rfl⟩
    · refine (h.clients e).other (update_of_ne he ..) rfl id id ?_ fun hw => absurd hw (hnot e)
      rintro (hw | ⟨hw, -⟩)
      · exact .inl hw
      · exact absurd (List.mem_singleton.mp hw) he
  · cases hstep

omit [Fintype C] in
/-- The server goes on with the same client. -/
theorem Inv.write (h : Inv su served [c] waiting s) (hc : s.Writing c) {pc : ServerPc C}
    {buff : Buff} {text : List UInt8} (hstored : pc.stored = []) (hok : ServerOk su [c] buff pc)
    (hpc : ({ s with server := pc } : State C).Writing c)
    (htodo : text ++ pc.todo su = s.server.todo su) :
    Inv su served [c] waiting { s with
      server := pc, buff := buff, fifo := update s.fifo c (s.fifo c ++ text) } := by
  have hidle : s.server.stored = [] := by
    cases heq : s.server <;> simp only [State.Writing, heq] at hc <;> rfl
  obtain ⟨hread, hall⟩ := of_writing h hc
  refine ⟨?_, hok, h.nodup, fun d => ?_⟩
  · have hbytes := h.bytes
    rw [hidle] at hbytes
    rw [hstored]
    exact hbytes
  · by_cases hd : d = c
    · subst hd
      simp only [ClientOk, update_self, hread]
      refine .inr ⟨hpc, ?_⟩
      rw [← hall, ← htodo]
      simp
    · refine (h.clients d).other rfl (update_of_ne hd ..) id id ?_ fun hw => ?_
      · rintro (hw | ⟨hw, -⟩)
        · exact .inl hw
        · exact absurd (List.mem_singleton.mp hw) hd
      · exact absurd (List.mem_singleton.mp (mem_current_of_writing h hw)) hd

omit [Fintype C] in
theorem Inv.goOn (h : Inv su served [c] waiting s) (hc : s.Writing c) {pc : ServerPc C}
    {buff : Buff} (hstored : pc.stored = []) (hok : ServerOk su [c] buff pc)
    (hpc : ({ s with server := pc } : State C).Writing c)
    (htodo : pc.todo su = s.server.todo su) :
    Inv su served [c] waiting { s with server := pc, buff := buff } := by
  have hnothing : [] ++ pc.todo su = s.server.todo su := htodo
  have hwrite := h.write hc hstored hok hpc hnothing
  rwa [List.append_nil, update_eq_self] at hwrite

omit [Fintype C] in
theorem inv_close (h : Inv su served [c] waiting s) (hpc : s.server = .close c) :
    Inv su (served ++ [c]) [] waiting { s with server := .readline [] } := by
  have hw : s.Writing c := by simp [State.Writing, hpc]
  obtain ⟨hread, hall⟩ := of_writing h hw
  have hbytes := h.bytes
  rw [hpc] at hbytes hall
  refine ⟨hbytes, ⟨rfl, List.not_mem_nil⟩, by simpa using h.nodup, fun d => ?_⟩
  by_cases hd : d = c
  · subst hd
    simp only [ClientOk, hread]
    exact .inl ⟨by simp, by simpa [ServerPc.todo] using hall⟩
  · refine (h.clients d).other rfl rfl (fun hs => List.mem_append_left _ hs) (by simp) ?_
      fun hw' => ?_
    · rintro (hw' | ⟨hw', -⟩)
      · exact .inl hw'
      · exact absurd (List.mem_singleton.mp hw') hd
    · exact absurd (List.mem_singleton.mp (mem_current_of_writing h hw')) hd

omit [Fintype C] in
theorem inv_server (hall : ∀ c, su.Complete c) (h : Inv su served current waiting s)
    (hstep : server su k s = some s') :
    ∃ served current waiting, Inv su served current waiting s' := by
  have hok := h.server
  cases hpc : s.server <;> simp only [server, hpc] at hstep <;> simp only [hpc, ServerOk] at hok
  case readline stored =>
    obtain ⟨current, waiting, hinv⟩ := inv_readRequest hall h hpc hstep
    exact ⟨served, current, waiting, hinv⟩
  case openFifo => cases hstep
  case openFile c n ptr =>
    obtain ⟨rfl, rfl, rfl, hholds⟩ := hok
    have hw : s.Writing c := by simp [State.Writing, hpc]
    rw [cstr_path (hall c) hholds] at hstep
    refine ⟨served, [c], waiting, ?_⟩
    split at hstep <;> cases hstep <;> rename_i hfile
    · exact h.goOn hw rfl ⟨rfl, cstr_error (hall c) hholds hfile⟩ rfl (by rw [hpc]; rfl)
    · refine h.goOn hw rfl rfl rfl ?_
      rw [hpc, ServerPc.todo, ServerPc.todo, Setup.answer, hfile]
  case error c ptr =>
    obtain ⟨rfl, htext⟩ := hok
    have hw : s.Writing c := by simp [State.Writing, hpc]
    simp only [Option.ite_none_right_eq_some, Option.some.injEq] at hstep
    obtain ⟨-, rfl⟩ := hstep
    rw [htext]
    exact ⟨served, [c], waiting, h.write hw rfl rfl rfl (by rw [hpc]; exact List.append_nil _)⟩
  case copy c rest =>
    subst hok
    have hw : s.Writing c := by simp [State.Writing, hpc]
    refine ⟨served, [c], waiting, ?_⟩
    split at hstep
    · rename_i hrest
      cases hstep
      exact h.goOn hw rfl rfl rfl (by rw [hpc, hrest]; rfl)
    · simp only [Option.ite_none_right_eq_some, Option.some.injEq] at hstep
      obtain ⟨-, rfl⟩ := hstep
      exact h.write hw rfl rfl rfl (by rw [hpc]; exact List.take_append_drop _ _)
  case close c =>
    subst hok
    cases hstep
    exact ⟨served ++ [c], [], waiting, inv_close h hpc⟩

theorem inv_step (hall : ∀ c, su.Complete c) {a : Label C}
    (h : ∃ served current waiting, Inv su served current waiting s)
    (hstep : step su s a = some s') : ∃ served current waiting, Inv su served current waiting s' := by
  obtain ⟨served, current, waiting, hinv⟩ := h
  cases a with
  | client c k =>
    obtain ⟨waiting, hinv'⟩ := inv_client hinv hstep
    exact ⟨served, current, waiting, hinv'⟩
  | server k => exact inv_server hall hinv hstep
  | openFifo c => exact ⟨served, current, waiting, inv_openFifo hinv hstep⟩
  | noFifo =>
    have hnone := noFifo_eq_none hinv
    simp only [step] at hstep
    rw [hnone] at hstep
    cases hstep

theorem exists_inv (hall : ∀ c, su.Complete c) (h : (system su).Reachable Lts.anyStep s) :
    ∃ served current waiting, Inv su served current waiting s :=
  h.invariant (P := fun s => ∃ served current waiting, Inv su served current waiting s)
    ⟨[], [], [], inv_init su⟩ fun _ _ _ hs _ hstep => inv_step hall hs hstep

end

end DdsAuto.FifoCliServ
