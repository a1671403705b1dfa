import DdsAuto.Lib.CString

/-!
# Requests and replies of the System V file servers

The parts of `client` and `server` that `svmsgmpx1q` and `svmsgmpxnq` share:
the request a client makes from its number and a line of its input, what the
server reads from it, and the messages that answer it. The number is the
client's pid in the one program and the id of its private queue in the other.
-/

namespace DdsAuto.Svmsg

open CString

/-- `PIPE_BUF - 2*sizeof(long)`, with the 4096 bytes of `<limits.h>`. -/
def MAXMESGDATA : Nat := 4080

-- ---------------------------------------------------------------------------
-- client.h
-- ---------------------------------------------------------------------------

/-- `snprintf(mesg.mesg_data, MAXMESGDATA, "%d ", readid)`; a pid with `%ld`. -/
def start (number : Nat) : List UInt8 := decimal number ++ [32]

/-- `Fgets(ptr, MAXMESGDATA - len, stdin)`, as a string; nothing is stored at
the end of the input. -/
def readPathname (len : Nat) (stdin : List UInt8) : List UInt8 :=
  match fgets (MAXMESGDATA - len) stdin with
  | none => []
  | some (line, _) => cstr line

/-- "delete newline from fgets()". -/
def dropNewline (text : List UInt8) : List UInt8 :=
  if text.getLast? = some 10 then text.dropLast else text

/-- The client's message. -/
def request (number : Nat) (stdin : List UInt8) : List UInt8 :=
  dropNewline (start number ++ readPathname (start number).length stdin)

-- ---------------------------------------------------------------------------
-- server.h
-- ---------------------------------------------------------------------------

/-- What `err_msg` says of a message the server does not answer. -/
inductive Rejected
  | pathnameMissing
  | bogusRequest (text : List UInt8)
  deriving DecidableEq, Repr

/-- The server's reading of a message of `n` bytes, a NUL behind them: the
string in front of the first blank and the bytes at `ptr`. -/
def parse (data : List UInt8) : Except Rejected (List UInt8 × List UInt8) :=
  if data = [] then .error .pathnameMissing
  else if 32 ∈ cstr data then
    .ok (data.takeWhile (· ≠ 32), (data.dropWhile (· ≠ 32)).tail)
  else .error (.bogusRequest (cstr data))

/-- `fopen` of a pathname and the reads after it: the text of `strerror`, or
the contents of the file. -/
abbrev Fopen := List UInt8 → Except (List UInt8) (List UInt8)

/-- ": can't open, %s\n". -/
def cantOpen (strerror : List UInt8) : List UInt8 :=
  [58, 32, 99, 97, 110, 39, 116, 32, 111, 112, 101, 110, 44, 32] ++ strerror ++ [10]

/-- The string at `ptr` once `snprintf` has put the text behind the `n` bytes
received, as far as there is room. -/
def errorText (n : Nat) (ptr strerror : List UInt8) : List UInt8 :=
  cstr (ptr ++ (cantOpen (cstr strerror)).take (MAXMESGDATA - n - 1))

/-- The messages that answer a request of `n` bytes: an error text or the lines
of the file, each as far as its first NUL, and "a 0-length message to signify
the end". -/
def replies (fopen : Fopen) (n : Nat) (ptr : List UInt8) : List (List UInt8) :=
  match fopen (cstr ptr) with
  | .error strerror => [errorText n ptr strerror, []]
  | .ok content => (lines MAXMESGDATA content).map cstr ++ [[]]

/-- What the loop at the end of `client` writes of the messages it receives. -/
def written (messages : List (List UInt8)) : List UInt8 := (messages.takeWhile (· ≠ [])).flatten

-- ---------------------------------------------------------------------------
-- The blank
-- ---------------------------------------------------------------------------

variable {data front ptr : List UInt8}

theorem blank_mem_cstr_iff (h : 32 ∉ front) : 32 ∈ cstr (front ++ 32 :: ptr) ↔ 0 ∉ front := by
  refine ⟨fun hblank hzero => ?_, fun hzero => ?_⟩
  · obtain ⟨first, last, rfl⟩ := List.append_of_mem hzero
    rw [List.append_assoc, List.cons_append, cstr_append_zero] at hblank
    exact h (List.mem_append_left _ ((List.takeWhile_prefix _).subset hblank))
  · rw [cstr, List.takeWhile_append_of_pos (ne_of_notMem hzero)]
    simp

theorem cut_at_blank (h : 32 ∉ front) : (front ++ 32 :: ptr).takeWhile (· ≠ 32) = front ∧
    ((front ++ 32 :: ptr).dropWhile (· ≠ 32)).tail = ptr := by
  rw [List.takeWhile_append_of_pos (ne_of_notMem h), List.dropWhile_append_of_pos (ne_of_notMem h)]
  simp

/-- The first blank stands in front of any NUL. -/
theorem parse_eq_ok_iff :
    parse data = .ok (front, ptr) ↔ data = front ++ 32 :: ptr ∧ 32 ∉ front ∧ 0 ∉ front := by
  constructor
  · intro h
    unfold parse at h
    split at h
    · cases h
    · split at h
      · rename_i hblank
        obtain ⟨first, rest, rfl, hfirst⟩ :=
          List.eq_append_cons_of_mem ((List.takeWhile_prefix _).subset hblank)
        rw [(cut_at_blank hfirst).1, (cut_at_blank hfirst).2] at h
        cases h
        exact ⟨rfl, hfirst, (blank_mem_cstr_iff hfirst).mp hblank⟩
      · cases h
  · rintro ⟨rfl, hfront, hzero⟩
    have hblank : 32 ∈ cstr (front ++ 32 :: ptr) := (blank_mem_cstr_iff hfront).mpr hzero
    rw [parse, if_neg (by simp), if_pos hblank, (cut_at_blank hfront).1, (cut_at_blank hfront).2]

-- ---------------------------------------------------------------------------
-- What the server reads is what the client wrote
-- ---------------------------------------------------------------------------

/-- The pathname a client sends. -/
def pathname (number : Nat) (stdin : List UInt8) : List UInt8 :=
  dropNewline (readPathname (start number).length stdin)

theorem zero_notMem_readPathname (len : Nat) (stdin : List UInt8) : 0 ∉ readPathname len stdin := by
  unfold readPathname
  split
  · simp
  · exact notMem_cstr _

theorem mem_of_mem_dropNewline (h : b ∈ dropNewline text) : b ∈ text := by
  unfold dropNewline at h
  split at h
  · exact (List.dropLast_prefix _).subset h
  · exact h

theorem notMem_decimal (hb : isDigit b = false) (n : Nat) : b ∉ decimal n := by
  intro h
  rw [isDigit_of_mem_decimal h] at hb
  cases hb

/-- The newline that goes is the pathname's, not the blank. -/
theorem dropNewline_start (number : Nat) (text : List UInt8) :
    dropNewline (start number ++ text) = start number ++ dropNewline text := by
  rcases List.eq_nil_or_concat text with rfl | ⟨front, b, rfl⟩
  · simp [dropNewline, start]
  · unfold dropNewline
    rw [List.concat_eq_append, ← List.append_assoc, List.getLast?_concat, List.getLast?_concat,
      List.dropLast_concat, List.dropLast_concat]
    split <;> simp

theorem request_eq (number : Nat) (stdin : List UInt8) :
    request number stdin = decimal number ++ 32 :: pathname number stdin := by
  rw [request, dropNewline_start, start, List.append_assoc]
  rfl

theorem zero_notMem_pathname (number : Nat) (stdin : List UInt8) : 0 ∉ pathname number stdin :=
  fun h => zero_notMem_readPathname _ stdin (mem_of_mem_dropNewline h)

/-- The server finds the number and the pathname again. -/
theorem parse_request (number : Nat) (stdin : List UInt8) :
    parse (request number stdin) = .ok (decimal number, pathname number stdin) := by
  rw [parse_eq_ok_iff]
  exact ⟨request_eq number stdin, notMem_decimal (by decide) number, notMem_decimal (by decide) number⟩

/-- The file or the error text of a client's own request, then an empty message. -/
def answer (fopen : Fopen) (number : Nat) (stdin : List UInt8) : List (List UInt8) :=
  replies fopen (request number stdin).length (pathname number stdin)

theorem replies_eq_append (fopen : Fopen) (n : Nat) (ptr : List UInt8) :
    ∃ texts, replies fopen n ptr = texts ++ [[]] := by
  unfold replies
  split
  · exact ⟨[_], rfl⟩
  · exact ⟨_, rfl⟩

theorem nil_mem_answer (fopen : Fopen) (number : Nat) (stdin : List UInt8) :
    [] ∈ answer fopen number stdin := by
  obtain ⟨texts, h⟩ := replies_eq_append fopen (request number stdin).length (pathname number stdin)
  rw [answer, h]
  simp

theorem answer_ne_nil (fopen : Fopen) (number : Nat) (stdin : List UInt8) :
    answer fopen number stdin ≠ [] :=
  List.ne_nil_of_mem (nil_mem_answer fopen number stdin)

-- ---------------------------------------------------------------------------
-- Everything fits in mesg_data
-- ---------------------------------------------------------------------------

theorem length_pathname_le (number : Nat) (stdin : List UInt8) :
    (pathname number stdin).length ≤ MAXMESGDATA - (start number).length - 1 := by
  have hread : (readPathname (start number).length stdin).length ≤
      MAXMESGDATA - (start number).length - 1 := by
    unfold readPathname fgets
    split
    · simp
    · rename_i line rest heq
      rw [Option.ite_none_left_eq_some, Option.some.injEq] at heq
      have hline := length_readLine_le (MAXMESGDATA - (start number).length - 1) stdin
      rw [heq.2] at hline
      exact (length_cstr_le line).trans hline
  refine Nat.le_trans ?_ hread
  unfold pathname dropNewline
  split
  · rw [List.length_dropLast]
    exact Nat.sub_le _ 1
  · exact Nat.le_refl _

/-- A message of an answer leaves room for its NUL, whatever the text of
`strerror` and the lines of the file. -/
theorem length_lt_of_mem_answer (hnumber : number < 2147483648)
    (hm : m ∈ answer fopen number stdin) : m.length < MAXMESGDATA := by
  have hstart : (start number).length ≤ 11 := by
    have hdec := length_decimal_le (n := number) (by omega)
    rw [start, List.length_append, List.length_singleton]
    exact Nat.succ_le_succ hdec
  have hlen : (request number stdin).length = (start number).length + (pathname number stdin).length := by
    rw [request_eq, start, List.append_cons, List.length_append]
  have hpath := length_pathname_le number stdin
  have hmax : MAXMESGDATA = 4080 := rfl
  unfold answer replies at hm
  split at hm
  · rename_i strerror _
    rw [List.mem_cons, List.mem_singleton] at hm
    rcases hm with rfl | rfl
    · refine Nat.lt_of_le_of_lt (length_cstr_le _) ?_
      rw [List.length_append, List.length_take]
      omega
    · decide
  · rcases List.mem_append.mp hm with hline | hend
    · obtain ⟨line, hmem, rfl⟩ := List.mem_map.mp hline
      have hle := (length_cstr_le line).trans (length_of_mem_lines hmem)
      exact Nat.lt_of_le_of_lt hle (by decide)
    · rw [List.mem_singleton.mp hend]
      decide

-- ---------------------------------------------------------------------------
-- What a client writes
-- ---------------------------------------------------------------------------

theorem written_append_nil (h : ∀ m ∈ messages, m ≠ []) (rest : List (List UInt8)) :
    written (messages ++ [] :: rest) = messages.flatten := by
  have hall : ∀ m ∈ messages, decide (m ≠ []) = true := by simpa using h
  rw [written, List.takeWhile_append_of_pos hall, List.takeWhile_cons_of_neg (by simp), List.append_nil]

/-- Messages before the first empty one are written as they come. -/
theorem flatten_prefix_written (h : ∀ m ∈ messages, m ≠ []) (hpre : messages <+: all) :
    messages.flatten <+: written all := by
  obtain ⟨rest, rfl⟩ := hpre
  have hall : ∀ m ∈ messages, decide (m ≠ []) = true := by simpa using h
  rw [written, List.takeWhile_append_of_pos hall, List.flatten_append]
  exact List.prefix_append _ _

theorem written_of_prefix (h : ∀ m ∈ messages, m ≠ []) (hpre : messages ++ [[]] <+: all) :
    written all = messages.flatten := by
  obtain ⟨rest, rfl⟩ := hpre
  rw [List.append_assoc, List.singleton_append, written_append_nil h]

/-- A file without NULs reaches the client as it is. -/
theorem written_answer (hopen : fopen (pathname number stdin) = .ok content) (h : 0 ∉ content) :
    written (answer fopen number stdin) = content := by
  have hflat : (lines MAXMESGDATA content).flatten = content := lines_flatten (by decide) content
  have hsame : (lines MAXMESGDATA content).map cstr = lines MAXMESGDATA content := by
    refine (List.map_congr_left fun line hline => cstr_of_notMem fun h0 => h ?_).trans (List.map_id _)
    rw [← hflat]
    exact List.mem_flatten.mpr ⟨line, hline, h0⟩
  rw [answer, replies, cstr_of_notMem (zero_notMem_pathname number stdin), hopen]
  simp only
  rw [hsame, written_append_nil (fun line hline => ne_nil_of_mem_lines (by decide) hline), hflat]

end DdsAuto.Svmsg
