import DdsAuto.Svmsg.Server

/-!
# Every request gets an end

The loops of the two servers over a sequence of requests, from any `mesg`. A
client stops at an empty message, so what it is sent has to be some data and then
nothing but empty messages. `terminates_iff`: for which requests that is so. It is
not so where a read of the file fails: `Fgets` ends the process, and no empty
message follows.
-/

namespace DdsAuto.Svmsg

open CInt CString

/-- A message of type 1, and what `fopen` gives for each pathname at the time. -/
structure Request where
  data : List UInt8
  fopen : List UInt8 → Opened

/-- How a pass of the loop ends. -/
inductive After
  | looping (mesg : Mymesg)
  | exited
  | undefined

-- ---------------------------------------------------------------------------
-- svmsgmpx1q
-- ---------------------------------------------------------------------------

/-- One pass: what it sends, and how it ends. What `atol` gives for a value that is
no `long` is not defined. -/
def Mpx1q.server (queues : Queues) (fuel : Nat) (mesg : Mymesg) (request : Request) :
    Option (List Sent × After) :=
  match receive mesg request.data with
  | .exited => some ([], .exited)
  | .undefined => some ([], .undefined)
  | .rejected mesg => some ([], .looping mesg)
  | .request mesg n ptr =>
    let pid := atol (cstr mesg.mesg_data)
    if IsLong pid then
      let mesg := { mesg with mesg_type := toInt pid }
      let opened := request.fopen (cstr (mesg.mesg_data.drop ptr))
      (reply queues queues.msqid fuel n ptr mesg opened).map fun r =>
        (r.sent, match r.mesg with
          | some mesg => .looping mesg
          | none => .exited)
    else some ([], .undefined)

-- ---------------------------------------------------------------------------
-- svmsgmpxnq
-- ---------------------------------------------------------------------------

/-- What a child has of its parent's variables. -/
structure Child where
  writeid : Int
  mesg : Mymesg
  n : Nat
  ptr : Nat

/-- One pass of the parent, with the child it forks. -/
def Mpxnq.server (mesg : Mymesg) (request : Request) : Option Child × After :=
  match receive mesg request.data with
  | .exited => (none, .exited)
  | .undefined => (none, .undefined)
  | .rejected mesg => (none, .looping mesg)
  | .request mesg n ptr =>
    if IsLong (atol (cstr mesg.mesg_data)) then
      (some ⟨atoi (cstr mesg.mesg_data), mesg, n, ptr⟩, .looping mesg)
    else (none, .undefined)

def Mpxnq.child (queues : Queues) (fuel : Nat) (c : Child) (request : Request) : Option Reply :=
  reply queues c.writeid fuel c.n c.ptr c.mesg (request.fopen (cstr (c.mesg.mesg_data.drop c.ptr)))

-- ---------------------------------------------------------------------------
-- What is asked of them
-- ---------------------------------------------------------------------------

/-- Data messages, and then empty ones, at least one. -/
def Terminated (texts : List (List UInt8)) : Prop :=
  ∃ data ends, texts = data ++ ends ∧ (∀ m ∈ data, m ≠ []) ∧ ends ≠ [] ∧ ∀ m ∈ ends, m = []

/-- They all go to the same client. -/
structure Answered (id mesg_type : Int) (sent : List Sent) : Prop where
  client : ∀ m ∈ sent, m.id = id ∧ m.mesg_type = mesg_type
  terminated : Terminated (sent.map Sent.mesg_data)

/-- The number in front of the blank. -/
def Request.number (request : Request) : Int := atol (cstr (request.data.takeWhile (· ≠ 32)))

def Request.pathname (request : Request) : List UInt8 := cstr (request.data.dropWhile (· ≠ 32)).tail

/-- The pass comes to its end, the client has its answer, and the loop goes on with
this `mesg`, a whole buffer. -/
def Mpx1q.Pass (queues : Queues) (mesg : Mymesg) (request : Request) (mesg' : Mymesg) : Prop :=
  ∃ fuel sent, Mpx1q.server queues fuel mesg request = some (sent, .looping mesg') ∧
    (32 ∈ request.data → Answered queues.msqid (toInt request.number) sent)

/-- The parent loops around, and the child it has forked comes to an end. -/
def Mpxnq.Pass (queues : Queues) (mesg : Mymesg) (request : Request) (mesg' : Mymesg) : Prop :=
  ∃ forked, Mpxnq.server mesg request = (forked, .looping mesg') ∧
    (32 ∈ request.data → ∃ c, forked = some c ∧ ∃ fuel r,
      Mpxnq.child queues fuel c request = some r ∧ Answered (toInt request.number) 1 r.sent)

/-- `for ( ; ; )` over these requests, each pass as it should be. -/
def Serves (pass : Mymesg → Request → Mymesg → Prop) : Mymesg → List Request → Prop
  | _, [] => True
  | mesg, request :: requests => ∃ mesg', pass mesg request mesg' ∧ Serves pass mesg' requests

-- ---------------------------------------------------------------------------
-- Which requests they serve
-- ---------------------------------------------------------------------------

/-- `strlen` of the line is 0. -/
def Line.StartsNul (l : Line) : Prop := l.bytes.head? = some 0

/-- Behind a line that begins with a NUL there are only such lines. -/
def NulsLast (lines : List Line) : Prop := lines.Pairwise fun l l' => l.StartsNul → l'.StartsNul

/-- The file, if it can be opened, is read to its end. -/
def Opened.Clean : Opened → Prop
  | .failed _ => True
  | .file reads => ∃ lines, Reaches reads lines false ∧ NulsLast lines

/-- A read fails, right behind a line that begins with a NUL. -/
def Opened.Stopped : Opened → Prop
  | .failed _ => False
  | .file reads => ∃ lines, Reaches reads lines true ∧ NulsLast lines ∧
      ∃ l, lines.getLast? = some l ∧ l.StartsNul

/-- A NUL fits behind the request; and if it has a blank, then in front of any NUL,
behind the pid of a process, and its file is read to the end. -/
def Mpx1q.Serviceable (request : Request) : Prop :=
  request.data.length < MAXMESGDATA ∧ (32 ∈ request.data → 32 ∈ cstr request.data ∧
    IsLong request.number ∧ 0 < toInt request.number ∧ (request.fopen request.pathname).Clean)

/-- The same, with the id of a queue. -/
def Mpxnq.Serviceable (queues : Queues) (request : Request) : Prop :=
  request.data.length < MAXMESGDATA ∧ (32 ∈ request.data → 32 ∈ cstr request.data ∧
    IsLong request.number ∧ queues.exist (toInt request.number) = true ∧
      ((request.fopen request.pathname).Clean ∨ (request.fopen request.pathname).Stopped))

-- ---------------------------------------------------------------------------
-- The shape of an answer
-- ---------------------------------------------------------------------------

variable {texts : List (List UInt8)} {lines : List Line} {ferror : Bool} {queues : Queues}
variable {id t : Int} {mesg mesg' : Mymesg} {n ptr fuel : Nat} {opened : Opened} {request : Request}

theorem terminated_iff_pairwise : Terminated texts ↔
    texts.getLast? = some [] ∧ texts.Pairwise fun m m' => m = [] → m' = [] := by
  constructor
  · rintro ⟨data, ends, rfl, hdata, hne, hends⟩
    obtain ⟨front, last, rfl⟩ := List.eq_nil_or_concat ends |>.resolve_left hne
    refine ⟨?_, List.pairwise_append.mpr ⟨?_, ?_, fun m hm m' hm' hnil => absurd hnil (hdata m hm)⟩⟩
    · rw [List.concat_eq_append, ← List.append_assoc, List.getLast?_concat, hends last (by simp)]
    · exact List.pairwise_of_forall_mem_list fun m hm m' _ hnil => absurd hnil (hdata m hm)
    · exact List.pairwise_of_forall_mem_list fun m _ m' hm' _ => hends m' hm'
  · rintro ⟨hlast, hpair⟩
    obtain ⟨data, rest, rfl, hdata⟩ := List.eq_append_cons_of_mem (List.mem_of_getLast? hlast)
    refine ⟨data, [] :: rest, rfl, ?_, by simp, ?_⟩
    · rintro m hm rfl
      exact hdata hm
    · intro m hm
      rcases List.mem_cons.mp hm with rfl | hm
      · rfl
      · exact List.rel_of_pairwise_cons (List.pairwise_append.mp hpair).2.1 hm rfl

theorem not_terminated_nil : ¬ Terminated [] := by
  rw [terminated_iff_pairwise]
  simp

theorem cstr_bytes_eq_nil_iff (l : Line) : cstr l.bytes = [] ↔ l.StartsNul := by
  obtain ⟨b, bs, hbytes⟩ := List.exists_cons_of_ne_nil l.ne_nil
  rw [Line.StartsNul, hbytes, cstr, List.takeWhile_cons]
  by_cases hb : b = 0 <;> simp [hb]

/-- The lines of a file and what follows them. -/
theorem terminated_lines_iff (lines : List Line) (ferror : Bool) :
    Terminated (lines.map (fun l => cstr l.bytes) ++ if ferror then [] else [[]]) ↔
      NulsLast lines ∧ (ferror = true → ∃ l, lines.getLast? = some l ∧ l.StartsNul) := by
  have hpair : (lines.map fun l => cstr l.bytes).Pairwise (fun m m' => m = [] → m' = []) ↔
      NulsLast lines := by
    simp only [List.pairwise_map, cstr_bytes_eq_nil_iff, NulsLast]
  rw [terminated_iff_pairwise]
  cases ferror with
  | true =>
    have hlast : (lines.map fun l => cstr l.bytes).getLast? = some [] ↔
        ∃ l, lines.getLast? = some l ∧ l.StartsNul := by
      simp only [List.getLast?_map, Option.map_eq_some_iff, cstr_bytes_eq_nil_iff]
    simp only [if_true, List.append_nil, hpair, hlast, true_imp_iff]
    exact and_comm
  | false =>
    simp [List.pairwise_append, hpair]

theorem answered_of_type (t : Int) (texts : List (List UInt8)) :
    Answered id t (texts.map (⟨id, t, ·⟩)) ↔ Terminated texts := by
  have hmap : (texts.map fun m => (⟨id, t, m⟩ : Sent)).map Sent.mesg_data = texts := by
    rw [List.map_map]
    exact List.map_id _
  refine ⟨fun h => hmap ▸ h.terminated, fun h => ⟨?_, hmap.symm ▸ h⟩⟩
  rintro m hm
  obtain ⟨text, -, rfl⟩ := List.mem_map.mp hm
  exact ⟨rfl, rfl⟩

-- ---------------------------------------------------------------------------
-- When a reply has this shape
-- ---------------------------------------------------------------------------

theorem not_answered_nil : ¬ Answered id t [] := fun h => not_terminated_nil h.terminated

theorem terminated_pair (text : List UInt8) : Terminated [text, []] := by
  rw [terminated_iff_pairwise]
  simp

/-- The reply to a request whose file is read as far as the null pointer. -/
theorem reply_file_iff (h : CanSend queues id mesg.mesg_type) (hreads : Reaches reads lines ferror)
    (hfuel : lines.length < fuel) (n ptr : Nat) :
    ∃ r, reply queues id fuel n ptr mesg (.file reads) = some r ∧ r.mesg.isSome = !ferror ∧
      (Answered id mesg.mesg_type r.sent ↔
        NulsLast lines ∧ (ferror = true → ∃ l, lines.getLast? = some l ∧ l.StartsNul)) := by
  obtain ⟨mesg', hfile⟩ := reply_file h hreads hfuel n ptr
  have hsent : (lines.map fun l => (⟨id, mesg.mesg_type, cstr l.bytes⟩ : Sent)) ++
      (if ferror then [] else [⟨id, mesg.mesg_type, []⟩]) =
      (lines.map (fun l : Line => cstr l.bytes) ++ if ferror then [] else [[]]).map
        (⟨id, mesg.mesg_type, ·⟩) := by
    cases ferror <;> simp
  refine ⟨_, hfile, ?_, ?_⟩
  · cases ferror <;> simp
  · rw [hsent, answered_of_type, terminated_lines_iff]

/-- A loop that comes to its end has read to the null pointer. -/
theorem exists_reaches_of_reply (h : CanSend queues id mesg.mesg_type)
    (hreply : reply queues id fuel n ptr mesg (.file reads) = some r) :
    ∃ lines ferror, lines.length < fuel ∧ Reaches reads lines ferror := by
  rw [reply, Option.map_eq_some_iff] at hreply
  obtain ⟨r', hcopy, -⟩ := hreply
  exact exists_reaches h hcopy

/-- The process that replies comes to an end or, after a reply to the end of the file,
goes on; and the client has its answer. -/
theorem exists_reply_iff (queues : Queues) (id : Int) (n ptr : Nat) (mesg : Mymesg) (opened : Opened)
    (Q : Bool → Prop) : (∃ fuel r, reply queues id fuel n ptr mesg opened = some r ∧ Q r.mesg.isSome ∧
      Answered id mesg.mesg_type r.sent) ↔
        CanSend queues id mesg.mesg_type ∧ (Q true ∧ opened.Clean ∨ Q false ∧ opened.Stopped) := by
  by_cases h : CanSend queues id mesg.mesg_type
  · rw [and_iff_right h]
    cases opened with
    | failed strerror =>
      have hanswered (text : List UInt8) :
          Answered id mesg.mesg_type [⟨id, mesg.mesg_type, text⟩, ⟨id, mesg.mesg_type, []⟩] :=
        (answered_of_type _ [text, []]).mpr (terminated_pair text)
      constructor
      · rintro ⟨fuel, r, hreply, hgoes, -⟩
        obtain ⟨mesg', hfailed⟩ := reply_failed h fuel n ptr strerror
        rw [hreply, Option.some.injEq] at hfailed
        subst hfailed
        exact .inl ⟨hgoes, trivial⟩
      · rintro (⟨hgoes, -⟩ | ⟨-, hno⟩)
        · obtain ⟨mesg', hfailed⟩ := reply_failed h 0 n ptr strerror
          exact ⟨0, _, hfailed, hgoes, hanswered _⟩
        · exact hno.elim
    | file reads =>
      constructor
      · rintro ⟨fuel, r, hreply, hgoes, hanswered⟩
        obtain ⟨lines, ferror, hfuel, hreads⟩ := exists_reaches_of_reply h hreply
        obtain ⟨r', hr', hsome, hiff⟩ := reply_file_iff h hreads hfuel n ptr
        rw [hreply, Option.some.injEq] at hr'
        subst hr'
        rw [hsome] at hgoes
        obtain ⟨hnuls, hlast⟩ := hiff.mp hanswered
        cases ferror with
        | false => exact .inl ⟨hgoes, lines, hreads, hnuls⟩
        | true => exact .inr ⟨hgoes, lines, hreads, hnuls, hlast rfl⟩
      · rintro (⟨hgoes, lines, hreads, hnuls⟩ | ⟨hgoes, lines, hreads, hnuls, hlast⟩)
        · obtain ⟨r, hr, hsome, hiff⟩ := reply_file_iff h hreads (Nat.lt_succ_self _) n ptr
          exact ⟨_, r, hr, by rw [hsome]; exact hgoes, hiff.mpr ⟨hnuls, nofun⟩⟩
        · obtain ⟨r, hr, hsome, hiff⟩ := reply_file_iff h hreads (Nat.lt_succ_self _) n ptr
          exact ⟨_, r, hr, by rw [hsome]; exact hgoes, hiff.mpr ⟨hnuls, fun _ => hlast⟩⟩
  · refine iff_of_false ?_ (fun hsend => h hsend.1)
    rintro ⟨fuel, r, hreply, -, hanswered⟩
    rw [sent_reply_of_not_canSend h hreply] at hanswered
    exact not_answered_nil hanswered

-- ---------------------------------------------------------------------------
-- One pass
-- ---------------------------------------------------------------------------

variable {data front path : List UInt8}

/-- A request that leaves no room for its NUL. -/
theorem receive_of_le (mesg : Mymesg) (h : MAXMESGDATA ≤ data.length) :
    receive mesg data = .exited ∨ receive mesg data = .undefined := by
  have hne : data.length ≠ 0 := Nat.ne_of_gt (Nat.lt_of_lt_of_le (by decide) h)
  unfold receive
  rcases Nat.lt_or_eq_of_le h with hlt | heq
  · exact .inl (if_pos hlt)
  · right
    rw [if_neg (by rw [heq]; exact Nat.lt_irrefl _)]
    simp only [if_neg hne, if_pos heq.symm]

theorem blank_notMem_of_parse_error (h : parse data = .error e) : 32 ∉ cstr data := by
  unfold parse at h
  split at h
  · rename_i hnil
    subst hnil
    decide
  · split at h
    · cases h
    · assumption

/-- The number and the pathname that the server reads. -/
theorem request_of_parse (h : parse request.data = .ok (front, path)) :
    request.number = atol front ∧ request.pathname = cstr path ∧ 32 ∈ request.data ∧
      32 ∈ cstr request.data := by
  obtain ⟨hdata, hfront, hzero⟩ := parse_eq_ok_iff.mp h
  obtain ⟨htake, hdrop⟩ : (front ++ 32 :: path).takeWhile (· ≠ 32) = front ∧
      ((front ++ 32 :: path).dropWhile (· ≠ 32)).tail = path := cut_at_blank hfront
  rw [Request.number, Request.pathname, hdata, htake, hdrop, cstr_of_notMem hzero]
  exact ⟨rfl, rfl, by simp, (blank_mem_cstr_iff hfront).mpr hzero⟩

theorem receive_cases (mesg : Mymesg) (request : Request) :
    (MAXMESGDATA ≤ request.data.length ∧
      (receive mesg request.data = .exited ∨ receive mesg request.data = .undefined)) ∨
    (request.data.length < MAXMESGDATA ∧ 32 ∉ cstr request.data ∧
      ∃ mesg', receive mesg request.data = .rejected mesg') ∨
    (request.data.length < MAXMESGDATA ∧ 32 ∈ request.data ∧ 32 ∈ cstr request.data ∧
      ∃ mesg' ptr, receive mesg request.data = .request mesg' request.data.length ptr ∧
        mesg'.mesg_type = 1 ∧ atol (cstr mesg'.mesg_data) = request.number ∧
          cstr (mesg'.mesg_data.drop ptr) = request.pathname) := by
  rcases Nat.lt_or_ge request.data.length MAXMESGDATA with hlt | hle
  · cases hparse : parse request.data with
    | error e =>
      exact .inr (.inl ⟨hlt, blank_notMem_of_parse_error hparse,
        receive_of_parse_error mesg hlt hparse⟩)
    | ok read =>
      obtain ⟨front, path⟩ := read
      obtain ⟨mesg', tail, hreceive, htype, hmesg⟩ := receive_of_parse mesg hlt hparse
      obtain ⟨hnumber, hpath, hmem, hblank⟩ := request_of_parse hparse
      obtain ⟨-, -, hzero⟩ := parse_eq_ok_iff.mp hparse
      refine .inr (.inr ⟨hlt, hmem, hblank, mesg', front.length + 1, hreceive, htype, ?_, ?_⟩)
      · rw [hmesg, cstr_append_zero, cstr_of_notMem hzero, hnumber]
      · rw [hmesg, List.append_cons, List.drop_left' (by simp), cstr_append_zero, hpath]
  · exact .inl ⟨hle, receive_of_le mesg hle⟩

theorem Mpx1q.pass_iff (queues : Queues) (mesg : Mymesg) (request : Request) :
    (∃ mesg', Mpx1q.Pass queues mesg request mesg') ↔ Mpx1q.Serviceable request := by
  rcases receive_cases mesg request with ⟨hle, hends⟩ | ⟨hlt, hno, m, hrejected⟩ |
    ⟨hlt, hmem, hblank, m, ptr, hrequest, -, hnumber, hpath⟩
  · refine iff_of_false ?_ (fun hgood => Nat.not_lt_of_le hle hgood.1)
    rintro ⟨mesg', fuel, sent, hserver, -⟩
    rcases hends with hends | hends <;> simp [Mpx1q.server, hends] at hserver
  · constructor
    · rintro ⟨mesg', fuel, sent, hserver, hanswered⟩
      simp only [Mpx1q.server, hrejected, Option.some.injEq, Prod.mk.injEq] at hserver
      obtain ⟨rfl, -⟩ := hserver
      exact ⟨hlt, fun hmem => absurd (hanswered hmem) not_answered_nil⟩
    · rintro ⟨-, hall⟩
      refine ⟨m, 0, [], ?_, fun hmem => absurd (hall hmem).1 hno⟩
      simp only [Mpx1q.server, hrejected]
  · have hreply := exists_reply_iff queues queues.msqid request.data.length ptr
      { m with mesg_type := toInt request.number } (request.fopen request.pathname) (· = true)
    simp only [true_and, Bool.false_eq_true, false_and, or_false] at hreply
    by_cases hlong : IsLong request.number
    · constructor
      · rintro ⟨mesg', fuel, sent, hserver, hanswered⟩
        simp only [Mpx1q.server, hrequest, hnumber, hpath, if_pos hlong, Option.map_eq_some_iff,
          Prod.mk.injEq] at hserver
        obtain ⟨r, hr, rfl, hafter⟩ := hserver
        have hgoes : r.mesg.isSome = true := by
          cases hmesg : r.mesg with
          | none => simp [hmesg] at hafter
          | some mesg => rfl
        obtain ⟨hsend, hclean⟩ := hreply.mp ⟨fuel, r, hr, hgoes, hanswered hmem⟩
        exact ⟨hlt, fun _ => ⟨hblank, hlong, hsend.2, hclean⟩⟩
      · rintro ⟨-, hall⟩
        obtain ⟨-, -, hpos, hclean⟩ := hall hmem
        obtain ⟨fuel, r, hr, hgoes, hanswered⟩ := hreply.mpr ⟨⟨queues.exist_msqid, hpos⟩, hclean⟩
        obtain ⟨mesg', hmesg⟩ := Option.isSome_iff_exists.mp hgoes
        refine ⟨mesg', fuel, r.sent, ?_, fun _ => hanswered⟩
        simp only [Mpx1q.server, hrequest, hnumber, hpath, if_pos hlong, hr, Option.map_some, hmesg]
    · refine iff_of_false ?_ (fun hgood => hlong (hgood.2 hmem).2.1)
      rintro ⟨mesg', fuel, sent, hserver, -⟩
      simp [Mpx1q.server, hrequest, hnumber, hlong] at hserver

theorem Mpxnq.pass_iff (queues : Queues) (mesg : Mymesg) (request : Request) :
    (∃ mesg', Mpxnq.Pass queues mesg request mesg') ↔ Mpxnq.Serviceable queues request := by
  rcases receive_cases mesg request with ⟨hle, hends⟩ | ⟨hlt, hno, m, hrejected⟩ |
    ⟨hlt, hmem, hblank, m, ptr, hrequest, htype, hnumber, hpath⟩
  · refine iff_of_false ?_ (fun hgood => Nat.not_lt_of_le hle hgood.1)
    rintro ⟨mesg', forked, hserver, -⟩
    rcases hends with hends | hends <;> simp [Mpxnq.server, hends] at hserver
  · constructor
    · rintro ⟨mesg', forked, hserver, hanswered⟩
      simp only [Mpxnq.server, hrejected, Prod.mk.injEq] at hserver
      obtain ⟨rfl, -⟩ := hserver
      refine ⟨hlt, fun hmem => ?_⟩
      obtain ⟨c, hforked, -⟩ := hanswered hmem
      cases hforked
    · rintro ⟨-, hall⟩
      refine ⟨m, none, ?_, fun hmem => absurd (hall hmem).1 hno⟩
      simp only [Mpxnq.server, hrejected]
  · have hreply := exists_reply_iff queues (toInt request.number) request.data.length ptr m
      (request.fopen request.pathname) fun _ => True
    simp only [true_and, htype, CanSend, Int.zero_lt_one, and_true] at hreply
    by_cases hlong : IsLong request.number
    · constructor
      · rintro ⟨mesg', forked, hserver, hanswered⟩
        simp only [Mpxnq.server, hrequest, hnumber, atoi, if_pos hlong, Prod.mk.injEq] at hserver
        obtain ⟨rfl, -⟩ := hserver
        obtain ⟨c, hforked, fuel, r, hr, hshape⟩ := hanswered hmem
        cases hforked
        simp only [Mpxnq.child, hpath] at hr
        obtain ⟨hexist, hfile⟩ := hreply.mp ⟨fuel, r, hr, hshape⟩
        exact ⟨hlt, fun _ => ⟨hblank, hlong, hexist, hfile⟩⟩
      · rintro ⟨-, hall⟩
        obtain ⟨-, -, hexist, hfile⟩ := hall hmem
        obtain ⟨fuel, r, hr, hshape⟩ := hreply.mpr ⟨hexist, hfile⟩
        refine ⟨m, some ⟨toInt request.number, m, request.data.length, ptr⟩, ?_, fun _ =>
          ⟨_, rfl, fuel, r, ?_, hshape⟩⟩
        · simp only [Mpxnq.server, hrequest, hnumber, atoi, if_pos hlong]
        · simp only [Mpxnq.child, hpath, hr]
    · refine iff_of_false ?_ (fun hgood => hlong (hgood.2 hmem).2.1)
      rintro ⟨mesg', forked, hserver, -⟩
      simp [Mpxnq.server, hrequest, hnumber, hlong] at hserver

-- ---------------------------------------------------------------------------
-- All passes
-- ---------------------------------------------------------------------------

/-- A loop that serves these requests and no others, whatever its `mesg`, serves the
sequences of them. -/
theorem serves_iff {pass : Mymesg → Request → Mymesg → Prop} {good : Request → Prop}
    (h : ∀ mesg request, (∃ mesg', pass mesg request mesg') ↔ good request) (mesg : Mymesg)
    (requests : List Request) : Serves pass mesg requests ↔ ∀ request ∈ requests, good request := by
  induction requests generalizing mesg with
  | nil => simp [Serves]
  | cons request requests ih =>
    simp only [Serves, ih, List.forall_mem_cons, ← h mesg request]
    exact exists_and_right

/-- Which sequences of requests are served as they should be, whatever the buffer
holds when the loop begins. -/
theorem terminates_iff (queues : Queues) (mesg : Mymesg) (requests : List Request) :
    (Serves (Mpxnq.Pass queues) mesg requests ↔
      ∀ request ∈ requests, Mpxnq.Serviceable queues request) ∧
    (Serves (Mpx1q.Pass queues) mesg requests ↔ ∀ request ∈ requests, Mpx1q.Serviceable request) :=
  ⟨serves_iff (Mpxnq.pass_iff queues) mesg requests,
    serves_iff (Mpx1q.pass_iff queues) mesg requests⟩

-- ---------------------------------------------------------------------------
-- The clients' own requests
-- ---------------------------------------------------------------------------

variable {number : Nat} {stdin : List UInt8} {fopen : List UInt8 → Opened}

/-- What a client sends has its number, its pathname, and room for a NUL. -/
theorem request_of_client (request : Request) (hnumber : number < 2147483648)
    (hdata : request.data = Svmsg.request number stdin) :
    request.data.length < MAXMESGDATA ∧ 32 ∈ request.data ∧ 32 ∈ cstr request.data ∧
      request.number = number ∧ request.pathname = Svmsg.pathname number stdin := by
  have hparse : parse request.data = .ok (decimal number, Svmsg.pathname number stdin) := by
    rw [hdata, parse_request]
  obtain ⟨hnum, hpath, hmem, hblank⟩ := request_of_parse hparse
  refine ⟨?_, hmem, hblank, by rw [hnum, atol_decimal],
    by rw [hpath, cstr_of_notMem (zero_notMem_pathname _ _)]⟩
  have hdec := length_decimal_le (n := number) (by omega)
  have hle := length_pathname_le number stdin
  have hmax : MAXMESGDATA = 4080 := rfl
  rw [hdata, request_eq, List.length_append, List.length_cons]
  rw [start, List.length_append, List.length_singleton] at hle
  omega

/-- Only the file decides whether the request of a client's pid is served. -/
theorem Mpx1q.serviceable_client_iff (hpos : 0 < number) (hnumber : number < 2147483648) :
    Mpx1q.Serviceable ⟨Svmsg.request number stdin, fopen⟩ ↔
      (fopen (Svmsg.pathname number stdin)).Clean := by
  obtain ⟨hlt, hmem, hblank, hnum, hpath⟩ :=
    request_of_client ⟨Svmsg.request number stdin, fopen⟩ hnumber rfl
  have hlong : IsLong (number : Int) := by unfold IsLong; omega
  have hpid : 0 < toInt (number : Int) := by rw [toInt_natCast number hnumber]; omega
  simp only [Mpx1q.Serviceable, hlt, hmem, hblank, hnum, hpath, hlong, hpid, true_and, true_imp_iff]

/-- And of one that has its queue. -/
theorem Mpxnq.serviceable_client_iff (hnumber : number < 2147483648)
    (hexist : queues.exist number = true) :
    Mpxnq.Serviceable queues ⟨Svmsg.request number stdin, fopen⟩ ↔
      (fopen (Svmsg.pathname number stdin)).Clean ∨
        (fopen (Svmsg.pathname number stdin)).Stopped := by
  obtain ⟨hlt, hmem, hblank, hnum, hpath⟩ :=
    request_of_client ⟨Svmsg.request number stdin, fopen⟩ hnumber rfl
  have hlong : IsLong (number : Int) := by unfold IsLong; omega
  simp only [Mpxnq.Serviceable, hlt, hmem, hblank, hnum, hpath, hlong,
    toInt_natCast number hnumber, hexist, true_and, true_imp_iff]

-- ---------------------------------------------------------------------------
-- A directory
-- ---------------------------------------------------------------------------

/-- "7 /": `fopen` opens a directory, and the first read of it fails. -/
def directory : Request where
  data := [55, 32, 47]
  fopen _ := .file (readsOf [] true)

def zeros : Mymesg := ⟨0, 0, List.replicate MAXMESGDATA 0, List.length_replicate⟩

theorem not_ends_directory : ¬ ((directory.fopen path).Clean ∨ (directory.fopen path).Stopped) := by
  rintro (⟨lines, hreads, -⟩ | ⟨lines, hreads, -, l, hlast, -⟩)
  · cases lines with
    | nil => cases hreads
    | cons l lines => cases hreads.1
  · cases lines with
    | nil => cases hlast
    | cons l lines => cases hreads.1

/-- Client 7 gets no empty message from either server, nor any other. -/
theorem directory_unterminated :
    ¬ Serves (Mpxnq.Pass ⟨fun _ => true, 0, rfl⟩) zeros [directory] ∧
      ¬ Serves (Mpx1q.Pass ⟨fun _ => true, 0, rfl⟩) zeros [directory] := by
  rw [serves_iff (Mpxnq.pass_iff _), serves_iff (Mpx1q.pass_iff _)]
  constructor
  · intro h
    exact not_ends_directory ((h directory List.mem_cons_self).2 (by decide)).2.2.2
  · intro h
    exact not_ends_directory (.inl ((h directory List.mem_cons_self).2 (by decide)).2.2.2)

end DdsAuto.Svmsg
