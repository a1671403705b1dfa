import DdsAuto.Lib.Memory
import DdsAuto.Lib.Words
import DdsAuto.Svmsg.Request

/-!
# The server on its buffer

`server` of `svmsgmpx1q` and of `svmsgmpxnq` with the one `struct mymesg` that
everything goes through: the request is received into it, the error text is
printed behind the request and moved to the front, and the lines of the file
are read over it. `receive` and `reply` are what the two have in common, up to
the loop and from `fopen` on; `parse` and `replies` say what they compute.

What `fopen` and each `fgets` give is arbitrary, and so is the length of the file:
`copy` takes a step of fuel for each `fgets`, and none suffices where the file
does not end. `Fclose` of a file that has only been read succeeds.
-/

namespace DdsAuto.Svmsg

open CInt CString Memory

/-- `full` is the array's size; the bytes of a `struct mymesg` that nobody has
stored yet may be any. -/
structure Mymesg where
  mesg_len : Int
  mesg_type : Int
  mesg_data : List UInt8
  full : mesg_data.length = MAXMESGDATA

/-- Stores that stay inside `mesg_data`. -/
def Mymesg.put (mesg : Mymesg) (off : Nat) (src : List UInt8) : Mymesg where
  mesg_len := mesg.mesg_len
  mesg_type := mesg.mesg_type
  mesg_data := store mesg.mesg_data off src
  full := by rw [length_store, mesg.full]

/-- The bytes that one `fgets` with room for `MAXMESGDATA` stores in front of its NUL. -/
structure Line where
  bytes : List UInt8
  ne_nil : bytes ≠ []
  fits : bytes.length < MAXMESGDATA

/-- `null` is the null pointer, with what `ferror` says then. -/
inductive FgetsResult
  | line (l : Line)
  | null (ferror : Bool)

/-- What `fopen` gives: the text of `strerror`, or a file and what each `fgets` gives. -/
inductive Opened
  | failed (strerror : List UInt8)
  | file (reads : Nat → FgetsResult)

/-- A message sent: `msgsnd(id, ..)`. -/
structure Sent where
  id : Int
  mesg_type : Int
  mesg_data : List UInt8
  deriving DecidableEq, Repr

/-- The queues of the system; the server's own is one of them. -/
structure Queues where
  exist : Int → Bool
  msqid : Int
  exist_msqid : exist msqid = true

/-- `strchr`: the offset in the string. -/
def strchr (block : List UInt8) (c : UInt8) : Option Nat :=
  if c ∈ cstr block then some ((cstr block).idxOf c) else none

-- ---------------------------------------------------------------------------
-- The request
-- ---------------------------------------------------------------------------

/-- `exited` is `err_sys`; `undefined` is a store behind the array; `rejected` is
`err_msg` and the loop's next pass. -/
inductive Received
  | exited
  | undefined
  | rejected (mesg : Mymesg)
  | request (mesg : Mymesg) (n ptr : Nat)

/-- The loop up to `*ptr++ = 0`, on a message of type 1 in the queue. `msgrcv`
fails if it is longer than `MAXMESGDATA`. -/
def receive (mesg : Mymesg) (data : List UInt8) : Received :=
  if MAXMESGDATA < data.length then .exited
  else
    let mesg := { mesg.put 0 data with mesg_len := data.length, mesg_type := 1 }
    let n := data.length
    if n = 0 then .rejected mesg
    else if n = MAXMESGDATA then .undefined
    else
      let mesg := mesg.put n [0]
      match strchr mesg.mesg_data 32 with
      | none => .rejected mesg
      | some i => .request (mesg.put i [0]) n (i + 1)

-- ---------------------------------------------------------------------------
-- The reply
-- ---------------------------------------------------------------------------

/-- `Mesg_send`; `none` is `err_sys`, for a queue that does not exist or a type
that is not above 0. -/
def mesgSend (queues : Queues) (id : Int) (mesg : Mymesg) : Option Sent :=
  if queues.exist id = true ∧ 0 < mesg.mesg_type then
    some ⟨id, mesg.mesg_type, load mesg.mesg_data 0 mesg.mesg_len.toNat⟩
  else none

/-- What a process has sent, and its `mesg`; none if `err_sys` has ended it. -/
structure Reply where
  sent : List Sent
  mesg : Option Mymesg

/-- The error text behind the `n` bytes of the request, then the string at `ptr`
moved to the front. -/
def Mymesg.cantOpen (mesg : Mymesg) (n ptr : Nat) (strerror : List UInt8) : Mymesg :=
  let mesg := mesg.put n ((Svmsg.cantOpen (cstr strerror)).take (MAXMESGDATA - n - 1) ++ [0])
  let len := (cstr (mesg.mesg_data.drop ptr)).length
  { mesg.put 0 (load mesg.mesg_data ptr len) with mesg_len := len }

/-- `Fgets` of a line, and its `strlen`. -/
def Mymesg.fgets (mesg : Mymesg) (l : Line) : Mymesg :=
  let mesg := mesg.put 0 (l.bytes ++ [0])
  { mesg with mesg_len := (cstr mesg.mesg_data).length }

/-- `while (Fgets(mesg.mesg_data, MAXMESGDATA, fp) != NULL)`; at an error `Fgets`
does not return. -/
def copy (queues : Queues) (id : Int) : Nat → (Nat → FgetsResult) → Mymesg → Option Reply
  | 0, _, _ => none
  | fuel + 1, reads, mesg =>
    match reads 0 with
    | .line l =>
      match mesgSend queues id (mesg.fgets l) with
      | none => some ⟨[], none⟩
      | some m => (copy queues id fuel (fun i => reads (i + 1)) (mesg.fgets l)).map fun r =>
          ⟨m :: r.sent, r.mesg⟩
    | .null ferror => some ⟨[], if ferror then none else some mesg⟩

/-- "send a 0-length message to signify the end". -/
def finish (queues : Queues) (id : Int) (r : Reply) : Reply :=
  match r.mesg with
  | none => r
  | some mesg =>
    let mesg := { mesg with mesg_len := 0 }
    match mesgSend queues id mesg with
    | none => ⟨r.sent, none⟩
    | some m => ⟨r.sent ++ [m], some mesg⟩

/-- The loop from `fopen` on. -/
def reply (queues : Queues) (id : Int) (fuel n ptr : Nat) (mesg : Mymesg) : Opened → Option Reply
  | .failed strerror =>
    let mesg := mesg.cantOpen n ptr strerror
    match mesgSend queues id mesg with
    | none => some ⟨[], none⟩
    | some m => some (finish queues id ⟨[m], some mesg⟩)
  | .file reads => (copy queues id fuel reads mesg).map (finish queues id)

-- ---------------------------------------------------------------------------
-- Strings in the buffer
-- ---------------------------------------------------------------------------

variable {data front ptr pre tail text : List UInt8} {mesg mesg' : Mymesg}

@[simp] theorem mesg_data_put (mesg : Mymesg) (off : Nat) (src : List UInt8) :
    (mesg.put off src).mesg_data = store mesg.mesg_data off src := rfl

theorem put_append (h : mesg.mesg_data = pre ++ tail) (hle : text.length ≤ tail.length) :
    (mesg.put pre.length text).mesg_data = pre ++ text ++ tail.drop text.length := by
  rw [mesg_data_put, h, store_append pre tail text hle]

theorem put_zero (mesg : Mymesg) (hle : text.length ≤ MAXMESGDATA) :
    (mesg.put 0 text).mesg_data = text ++ mesg.mesg_data.drop text.length :=
  have hsplit : mesg.mesg_data = [] ++ mesg.mesg_data := rfl
  put_append hsplit (hle.trans (Nat.le_of_eq mesg.full.symm))

/-- The string put at the front is what goes out. -/
theorem load_put_zero (mesg : Mymesg) (hle : text.length ≤ MAXMESGDATA) :
    load (mesg.put 0 text).mesg_data 0 text.length = text :=
  load_store mesg.mesg_data (hle.trans (Nat.le_of_eq mesg.full.symm))

theorem strchr_append_zero (text tail : List UInt8) (c : UInt8) :
    strchr (text ++ 0 :: tail) c = strchr text c := by
  rw [strchr, strchr, cstr_append_zero]

-- ---------------------------------------------------------------------------
-- `receive` reads what `parse` says
-- ---------------------------------------------------------------------------

/-- No blank, or only behind a NUL. -/
theorem strchr_of_parse_error (h : parse data = .error e) : strchr data 32 = none := by
  unfold parse at h
  split at h
  · rename_i hnil
    rw [hnil]
    rfl
  · split at h
    · cases h
    · rename_i hblank
      exact if_neg hblank

theorem strchr_of_parse (h : parse data = .ok (front, ptr)) :
    strchr data 32 = some front.length := by
  obtain ⟨rfl, hfront, hzero⟩ := parse_eq_ok_iff.mp h
  have hcstr : cstr (front ++ 32 :: ptr) = front ++ 32 :: cstr ptr := by
    rw [cstr, List.takeWhile_append_of_pos (ne_of_notMem hzero),
      List.takeWhile_cons_of_pos (by decide), cstr]
  rw [strchr, if_pos ((blank_mem_cstr_iff hfront).mpr hzero), hcstr, List.idxOf_append,
    if_neg hfront, List.idxOf_cons_self, Nat.zero_add]

/-- `mesg_data` after the request has been received and its end marked. -/
theorem mesg_data_received (mesg : Mymesg) (h : data.length < MAXMESGDATA) :
    ∃ tail, store (store mesg.mesg_data (0 : Nat) data) data.length [0] = data ++ 0 :: tail := by
  have hfirst : store mesg.mesg_data (0 : Nat) data = data ++ mesg.mesg_data.drop data.length :=
    put_zero mesg (Nat.le_of_lt h)
  have hroom : 1 ≤ (mesg.mesg_data.drop data.length).length := by
    rw [List.length_drop, mesg.full]
    exact Nat.sub_pos_of_lt h
  refine ⟨(mesg.mesg_data.drop data.length).drop 1, ?_⟩
  rw [hfirst, store_append data _ [0] hroom, List.append_assoc]
  rfl

theorem receive_of_parse_error (mesg : Mymesg) (h : data.length < MAXMESGDATA)
    (hparse : parse data = .error e) : ∃ mesg', receive mesg data = .rejected mesg' := by
  obtain ⟨tail, htail⟩ := mesg_data_received mesg h
  unfold receive
  rw [if_neg (Nat.not_lt_of_lt h)]
  simp only
  split
  · exact ⟨_, rfl⟩
  · rw [if_neg (Nat.ne_of_lt h)]
    simp only [mesg_data_put, htail, strchr_append_zero, strchr_of_parse_error hparse]
    exact ⟨_, rfl⟩

/-- The number and the pathname are strings of the buffer. -/
theorem receive_of_parse (mesg : Mymesg) (h : data.length < MAXMESGDATA)
    (hparse : parse data = .ok (front, ptr)) : ∃ mesg' tail,
      receive mesg data = .request mesg' data.length (front.length + 1) ∧ mesg'.mesg_type = 1 ∧
        mesg'.mesg_data = front ++ 0 :: (ptr ++ 0 :: tail) := by
  obtain ⟨tail, htail⟩ := mesg_data_received mesg h
  obtain ⟨hdata, -, -⟩ := parse_eq_ok_iff.mp hparse
  have hne : data.length ≠ 0 := by
    rw [hdata]
    simp
  unfold receive
  rw [if_neg (Nat.not_lt_of_lt h)]
  simp only [mesg_data_put, htail, strchr_append_zero, strchr_of_parse hparse, if_neg hne,
    if_neg (Nat.ne_of_lt h)]
  refine ⟨_, tail, rfl, rfl, ?_⟩
  rw [mesg_data_put, mesg_data_put, htail, hdata, List.append_assoc,
    store_append front _ [0] (by simp)]
  simp

-- ---------------------------------------------------------------------------
-- The file
-- ---------------------------------------------------------------------------

/-- Each `fgets` gives a line of `lines`, and the one after them the null pointer. -/
def Reaches (reads : Nat → FgetsResult) : List Line → Bool → Prop
  | [], ferror => reads 0 = .null ferror
  | l :: lines, ferror => reads 0 = .line l ∧ Reaches (fun i => reads (i + 1)) lines ferror

variable {queues : Queues} {id : Int} {fuel n : Nat} {reads : Nat → FgetsResult} {lines : List Line}
variable {ferror : Bool} {r : Reply} {l : Line}

/-- What `Mesg_send` asks for. -/
def CanSend (queues : Queues) (id mesg_type : Int) : Prop := queues.exist id = true ∧ 0 < mesg_type

theorem mesgSend_of_canSend (mesg : Mymesg) (h : CanSend queues id mesg.mesg_type) :
    mesgSend queues id mesg =
      some ⟨id, mesg.mesg_type, load mesg.mesg_data 0 mesg.mesg_len.toNat⟩ := if_pos h

theorem mesgSend_of_not_canSend (mesg : Mymesg) (h : ¬ CanSend queues id mesg.mesg_type) :
    mesgSend queues id mesg = none := if_neg h

@[simp] theorem mesg_type_fgets (mesg : Mymesg) (l : Line) :
    (mesg.fgets l).mesg_type = mesg.mesg_type := rfl

@[simp] theorem mesg_type_cantOpen (mesg : Mymesg) (n ptr : Nat) (strerror : List UInt8) :
    (mesg.cantOpen n ptr strerror).mesg_type = mesg.mesg_type := rfl

/-- A line goes out as far as its first NUL. -/
theorem load_fgets (mesg : Mymesg) (l : Line) :
    load (mesg.fgets l).mesg_data 0 (mesg.fgets l).mesg_len.toNat = cstr l.bytes := by
  have hroom : (l.bytes ++ [0]).length ≤ MAXMESGDATA := by
    rw [List.length_append]
    exact l.fits
  have hput : (mesg.put 0 (l.bytes ++ [0])).mesg_data =
      l.bytes ++ 0 :: mesg.mesg_data.drop (l.bytes ++ [0]).length := by
    rw [put_zero mesg hroom, List.append_assoc]
    rfl
  have hlen : (mesg.fgets l).mesg_len.toNat = (cstr l.bytes).length := by
    show (cstr (mesg.put 0 (l.bytes ++ [0])).mesg_data).length = (cstr l.bytes).length
    rw [hput, cstr_append_zero]
  have hle : (cstr l.bytes).length ≤ (mesg.fgets l).mesg_data.length := by
    rw [(mesg.fgets l).full]
    exact (length_cstr_le l.bytes).trans (Nat.le_of_lt l.fits)
  rw [hlen, load_eq_take hle]
  show (mesg.put 0 (l.bytes ++ [0])).mesg_data.take (cstr l.bytes).length = cstr l.bytes
  rw [hput, List.take_append_of_le_length (length_cstr_le l.bytes), take_length_cstr]

theorem copy_of_reaches (h : CanSend queues id mesg.mesg_type) (hreads : Reaches reads lines ferror)
    (hfuel : lines.length < fuel) : ∃ mesg', mesg'.mesg_type = mesg.mesg_type ∧
      copy queues id fuel reads mesg = some ⟨lines.map fun l => ⟨id, mesg.mesg_type, cstr l.bytes⟩,
        if ferror then none else some mesg'⟩ := by
  induction lines generalizing fuel reads mesg with
  | nil =>
    obtain ⟨fuel, rfl⟩ := Nat.exists_eq_add_one_of_ne_zero (Nat.ne_of_gt hfuel)
    have hreads : reads 0 = .null ferror := hreads
    refine ⟨mesg, rfl, ?_⟩
    simp only [copy, hreads, List.map_nil]
  | cons l lines ih =>
    obtain ⟨fuel, rfl⟩ := Nat.exists_eq_add_one_of_ne_zero (Nat.ne_of_gt (Nat.zero_lt_of_lt hfuel))
    obtain ⟨hline, hrest⟩ := hreads
    have hsend := mesgSend_of_canSend (mesg.fgets l) h
    have hnext : CanSend queues id (mesg.fgets l).mesg_type := h
    obtain ⟨mesg', htype, hcopy⟩ := ih hnext hrest (Nat.lt_of_succ_lt_succ hfuel)
    refine ⟨mesg', htype, ?_⟩
    simp only [copy, hline, hsend, hcopy, load_fgets, mesg_type_fgets, Option.map_some,
      List.map_cons]

/-- A loop that ends has read to the null pointer. -/
theorem exists_reaches (h : CanSend queues id mesg.mesg_type)
    (hcopy : copy queues id fuel reads mesg = some r) :
    ∃ lines ferror, lines.length < fuel ∧ Reaches reads lines ferror := by
  induction fuel generalizing reads mesg r with
  | zero => cases hcopy
  | succ fuel ih =>
    rw [copy] at hcopy
    split at hcopy
    · rename_i l hline
      rw [mesgSend_of_canSend (mesg.fgets l) h] at hcopy
      obtain ⟨r', hrest, -⟩ := Option.map_eq_some_iff.mp hcopy
      have hnext : CanSend queues id (mesg.fgets l).mesg_type := h
      obtain ⟨lines, ferror, hlen, hreads⟩ := ih hnext hrest
      exact ⟨l :: lines, ferror, Nat.succ_lt_succ hlen, hline, hreads⟩
    · rename_i ferror hnull
      exact ⟨[], ferror, Nat.succ_pos fuel, hnull⟩

theorem sent_copy_of_not_canSend (h : ¬ CanSend queues id mesg.mesg_type)
    (hcopy : copy queues id fuel reads mesg = some r) :
    r.sent = [] ∧ ∀ mesg', r.mesg = some mesg' → mesg'.mesg_type = mesg.mesg_type := by
  cases fuel with
  | zero => cases hcopy
  | succ fuel =>
    rw [copy] at hcopy
    split at hcopy
    · rename_i l hline
      rw [mesgSend_of_not_canSend (mesg.fgets l) h] at hcopy
      cases hcopy
      exact ⟨rfl, fun mesg' hmesg => nomatch hmesg⟩
    · cases hcopy
      refine ⟨rfl, fun mesg' hmesg => ?_⟩
      rw [Option.ite_none_left_eq_some, Option.some.injEq] at hmesg
      rw [hmesg.2]

-- ---------------------------------------------------------------------------
-- The whole reply
-- ---------------------------------------------------------------------------

theorem finish_of_canSend (mesg : Mymesg) (h : CanSend queues id mesg.mesg_type)
    (sent : List Sent) :
    finish queues id ⟨sent, some mesg⟩ =
      ⟨sent ++ [⟨id, mesg.mesg_type, []⟩], some { mesg with mesg_len := 0 }⟩ := by
  simp only [finish, mesgSend_of_canSend ({ mesg with mesg_len := 0 }) h]
  rfl

theorem reply_failed (h : CanSend queues id mesg.mesg_type) (fuel n ptr : Nat)
    (strerror : List UInt8) :
    ∃ mesg', reply queues id fuel n ptr mesg (.failed strerror) = some ⟨[⟨id, mesg.mesg_type,
      load (mesg.cantOpen n ptr strerror).mesg_data 0 (mesg.cantOpen n ptr strerror).mesg_len.toNat⟩,
      ⟨id, mesg.mesg_type, []⟩], some mesg'⟩ := by
  refine ⟨{ mesg.cantOpen n ptr strerror with mesg_len := 0 }, ?_⟩
  simp only [reply, mesgSend_of_canSend (mesg.cantOpen n ptr strerror) h,
    finish_of_canSend (mesg.cantOpen n ptr strerror) h, mesg_type_cantOpen]
  rfl

theorem reply_file (h : CanSend queues id mesg.mesg_type) (hreads : Reaches reads lines ferror)
    (hfuel : lines.length < fuel) (n ptr : Nat) : ∃ mesg',
      reply queues id fuel n ptr mesg (.file reads) =
        some ⟨(lines.map fun l => ⟨id, mesg.mesg_type, cstr l.bytes⟩) ++
          (if ferror then [] else [⟨id, mesg.mesg_type, []⟩]), if ferror then none else some mesg'⟩ := by
  obtain ⟨mesg', htype, hcopy⟩ := copy_of_reaches h hreads hfuel
  refine ⟨{ mesg' with mesg_len := 0 }, ?_⟩
  rw [reply, hcopy]
  cases ferror with
  | true => simp [finish]
  | false =>
    rw [← htype] at h ⊢
    simp [finish_of_canSend mesg' h]

theorem sent_reply_of_not_canSend {n ptr : Nat} (h : ¬ CanSend queues id mesg.mesg_type)
    (hreply : reply queues id fuel n ptr mesg opened = some r) : r.sent = [] := by
  cases opened with
  | failed strerror =>
    simp only [reply, mesgSend_of_not_canSend (mesg.cantOpen n ptr strerror) h] at hreply
    cases hreply
    rfl
  | file reads =>
    rw [reply, Option.map_eq_some_iff] at hreply
    obtain ⟨r', hcopy, rfl⟩ := hreply
    obtain ⟨hsent, htype⟩ := sent_copy_of_not_canSend h hcopy
    unfold finish
    split
    · exact hsent
    · rename_i mesg' hmesg
      rw [← htype mesg' hmesg] at h
      simp only [mesgSend_of_not_canSend ({ mesg' with mesg_len := 0 }) h]
      exact hsent

-- ---------------------------------------------------------------------------
-- `reply` sends what `replies` says
-- ---------------------------------------------------------------------------

/-- The reads of these lines, and then the null pointer. -/
def readsOf (lines : List Line) (ferror : Bool) (i : Nat) : FgetsResult :=
  match lines[i]? with
  | some l => .line l
  | none => .null ferror

theorem reaches_readsOf (lines : List Line) (ferror : Bool) :
    Reaches (readsOf lines ferror) lines ferror := by
  induction lines with
  | nil => rfl
  | cons l lines ih => exact ⟨rfl, ih⟩

/-- The lines of a file with these bytes. -/
def contentLines (content : List UInt8) : List Line :=
  (CString.lines MAXMESGDATA content).attach.map fun l =>
    ⟨l.1, ne_nil_of_mem_lines (by decide) l.2,
      Nat.lt_of_le_of_lt (length_of_mem_lines l.2) (by decide)⟩

def Opened.ofFopen : Except (List UInt8) (List UInt8) → Opened
  | .error strerror => .failed strerror
  | .ok content => .file (readsOf (contentLines content) false)

theorem map_contentLines (content : List UInt8) :
    (contentLines content).map (fun l => cstr l.bytes) =
      (CString.lines MAXMESGDATA content).map cstr := by
  rw [contentLines, List.map_map]
  exact List.attach_map_val

/-- The buffer once the error text stands behind the request. -/
theorem drop_put_cantOpen (h : mesg.mesg_data = front ++ 0 :: (ptr ++ 0 :: tail))
    (hlen : text.length ≤ MAXMESGDATA - (front.length + 1 + ptr.length) - 1) : ∃ tail',
      (mesg.put (front.length + 1 + ptr.length) (text ++ [0])).mesg_data.drop (front.length + 1) =
        ptr ++ text ++ 0 :: tail' := by
  have hsize := mesg.full
  rw [h] at hsize
  simp only [List.length_append, List.length_cons] at hsize
  have hsplit : mesg.mesg_data = (front ++ 0 :: ptr) ++ 0 :: tail := by simp [h]
  have hpre : (front ++ 0 :: ptr).length = front.length + 1 + ptr.length := by
    simp only [List.length_append, List.length_cons]
    omega
  have hroom : (text ++ [0]).length ≤ (0 :: tail).length := by
    simp only [List.length_append, List.length_cons, List.length_nil]
    omega
  refine ⟨(0 :: tail).drop (text ++ [0]).length, ?_⟩
  rw [← hpre, put_append hsplit hroom]
  have hdrop : ∀ rest : List UInt8, (front ++ 0 :: rest).drop (front.length + 1) = rest := by
    intro rest
    rw [List.append_cons, List.drop_left' (by simp)]
  simp only [List.append_assoc, List.cons_append, List.nil_append, hdrop]

/-- What is moved to the front is the string that begins with the pathname. -/
theorem load_cantOpen (h : mesg.mesg_data = front ++ 0 :: (ptr ++ 0 :: tail))
    (strerror : List UInt8) :
    load (mesg.cantOpen (front.length + 1 + ptr.length) (front.length + 1) strerror).mesg_data 0
        (mesg.cantOpen (front.length + 1 + ptr.length) (front.length + 1) strerror).mesg_len.toNat =
      errorText (front.length + 1 + ptr.length) ptr strerror := by
  have hlen :
      ((cantOpen (cstr strerror)).take (MAXMESGDATA - (front.length + 1 + ptr.length) - 1)).length ≤
        MAXMESGDATA - (front.length + 1 + ptr.length) - 1 := List.length_take_le _ _
  obtain ⟨tail', hdrop⟩ := drop_put_cantOpen h hlen
  generalize hmid : mesg.put (front.length + 1 + ptr.length)
    ((cantOpen (cstr strerror)).take (MAXMESGDATA - (front.length + 1 + ptr.length) - 1) ++ [0]) = mid
    at hdrop
  have hstring : cstr (mid.mesg_data.drop (front.length + 1)) =
      errorText (front.length + 1 + ptr.length) ptr strerror := by
    rw [hdrop, cstr_append_zero]
    rfl
  have hfits : front.length + 1 + (cstr (mid.mesg_data.drop (front.length + 1))).length ≤
      mid.mesg_data.length := by
    have hle := length_cstr_le (mid.mesg_data.drop (front.length + 1))
    have hpos := congrArg List.length hdrop
    simp only [List.length_drop, List.length_append, List.length_cons] at hle hpos
    omega
  have hroom : (cstr (mid.mesg_data.drop (front.length + 1))).length ≤ MAXMESGDATA :=
    (Nat.le_add_left _ _).trans (hfits.trans (Nat.le_of_eq mid.full))
  have hload := load_eq hfits
  rw [take_length_cstr] at hload
  unfold Mymesg.cantOpen
  simp only [hmid, Int.toNat_natCast]
  show load (mid.put 0 (load mid.mesg_data ((front.length + 1 : Nat) : Int) _)).mesg_data 0 _ = _
  rw [hload, load_put_zero mid hroom, hstring]

/-- On the buffer that `receive` leaves, `reply` sends the messages of `replies`. -/
theorem reply_eq_replies (h : CanSend queues id mesg.mesg_type) (fopen : Fopen)
    (hdata : mesg.mesg_data = front ++ 0 :: (ptr ++ 0 :: tail)) :
    ∃ fuel mesg', reply queues id fuel (front.length + 1 + ptr.length) (front.length + 1) mesg
        (.ofFopen (fopen (cstr ptr))) =
      some ⟨(replies fopen (front.length + 1 + ptr.length) ptr).map (⟨id, mesg.mesg_type, ·⟩),
        some mesg'⟩ := by
  cases hopen : fopen (cstr ptr) with
  | error strerror =>
    obtain ⟨mesg', hreply⟩ :=
      reply_failed h 0 (front.length + 1 + ptr.length) (front.length + 1) strerror
    refine ⟨0, mesg', hreply.trans ?_⟩
    rw [load_cantOpen hdata, replies, hopen]
    rfl
  | ok content =>
    obtain ⟨mesg', hreply⟩ := reply_file h (reaches_readsOf (contentLines content) false)
      (Nat.lt_succ_self _) (front.length + 1 + ptr.length) (front.length + 1)
    refine ⟨_, mesg', hreply.trans ?_⟩
    rw [replies, hopen]
    simp only [← map_contentLines, List.map_append, List.map_map, List.map_cons, List.map_nil]
    rfl

end DdsAuto.Svmsg
