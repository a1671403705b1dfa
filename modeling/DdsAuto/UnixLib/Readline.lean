import DdsAuto.Lib.CString
import DdsAuto.Lib.Memory

/-!
# `readline`

`my_read` hands out the bytes of a static buffer one at a time and fills it by
`read`; `readline` stores them up to a newline. Its count `n` is one ahead of
the bytes stored, until a newline is: a call that ends at the end of file or
with a full buffer returns one too many.
-/

namespace DdsAuto.UnixLib

open CInt CString Memory

def MAXLINE : Nat := 4096

/-- What a call of `read` returns; `fail` is -1 with an `errno` other than `EINTR`. -/
inductive ReadResult
  | data (chunk : List UInt8)
  | eintr
  | fail
  deriving DecidableEq, Repr

/-- `unread` are the bytes of `read_buf` from `read_ptr` on; `read_cnt` is their
number, or -1 after an error, and only its sign is looked at. After the results
in `input` every `read` is at the end of the file. -/
structure Reader where
  unread : List UInt8
  input : List ReadResult
  deriving DecidableEq, Repr

/-- The loop at `again`: the bytes read, none at the end of the file. -/
def again : List ReadResult → Option (List UInt8) × List ReadResult
  | [] => (some [], [])
  | .eintr :: input => again input
  | .fail :: input => (none, input)
  | .data chunk :: input => (some chunk, input)

/-- What `my_read` returns: 1 with a byte, 0 or -1. -/
inductive MyRead
  | byte (c : UInt8)
  | eof
  | error
  deriving DecidableEq, Repr

def myRead (r : Reader) : MyRead × Reader :=
  match r.unread with
  | c :: unread => (.byte c, { r with unread })
  | [] =>
    match again r.input with
    | (none, input) => (.error, ⟨[], input⟩)
    | (some [], input) => (.eof, ⟨[], input⟩)
    | (some (c :: unread), input) => (.byte c, ⟨unread, input⟩)

/-- A call of `readline`: what it stored from `vptr` on, whether a NUL follows,
and what it returned. -/
structure Line where
  stored : List UInt8
  terminated : Bool
  n : Int
  deriving DecidableEq, Repr

/-- The loop of `readline` from its test on, a step of `fuel` for each pass. `n`
is an `int`; the result of its overflow, which C leaves open, is taken to wrap. -/
def loop (maxlen : Nat) : Nat → Int → List UInt8 → Reader → Option (Line × Reader)
  | 0, _, _, _ => none
  | fuel + 1, n, stored, r =>
    if toSizeT n < maxlen then
      match myRead r with
      | (.byte c, r) =>
        if c = 10 then some (⟨stored ++ [c], true, n⟩, r)
        else loop maxlen fuel (toInt (n + 1)) (stored ++ [c]) r
      | (.eof, r) => if n = 1 then some (⟨stored, false, 0⟩, r) else some (⟨stored, true, n⟩, r)
      | (.error, r) => some (⟨stored, false, -1⟩, r)
    else some (⟨stored, true, n⟩, r)

/-- The bytes that `read` will deliver. -/
def content : List ReadResult → List UInt8
  | [] => []
  | .data chunk :: input => chunk ++ content input
  | .eintr :: input | .fail :: input => content input

/-- The bytes not handed out yet. -/
def Reader.bytes (r : Reader) : List UInt8 := r.unread ++ content r.input

/-- `readline(fd, vptr, maxlen)`; a pass takes a byte or is the last one. -/
def readline (maxlen : Nat) (r : Reader) : Option (Line × Reader) :=
  loop maxlen (r.bytes.length + 1) 1 [] r

/-- `while ( (n = Readline(readfifo, buff, MAXLINE)) > 0)`: the calls, the last
one included, a step of `fuel` for each. -/
def callsFuel (maxlen : Nat) : Nat → Reader → Option (List Line)
  | 0, _ => none
  | fuel + 1, r =>
    (readline maxlen r).bind fun (line, r) =>
      if line.n > 0 then (callsFuel maxlen fuel r).map fun lines => line :: lines else some [line]

def calls (maxlen : Nat) (input : List ReadResult) : Option (List Line) :=
  callsFuel maxlen ((content input).length + 1) ⟨[], input⟩

/-- The buffer of the caller after the call. -/
def Line.buffer (line : Line) (block : List UInt8) : List UInt8 :=
  store block 0 (line.stored ++ if line.terminated then [0] else [])

/-- The call returns the number of bytes stored, and where that is not 0 the
caller finds the last one at `buf[n-1]` and a NUL at `buf[n]`. -/
structure Line.Counted (maxlen : Nat) (line : Line) : Prop where
  count : line.n = line.stored.length
  stored_lt : line.stored.length < maxlen
  terminated : line.stored ≠ [] → line.terminated = true
  last : ∀ block, block.length = maxlen → line.stored ≠ [] →
    (line.buffer block)[line.n.toNat - 1]? = line.stored.getLast?
  nul : ∀ block, block.length = maxlen → line.stored ≠ [] →
    (line.buffer block)[line.n.toNat]? = some 0

/-- The calls take the lines of the input, each as far as `maxlen - 1` bytes, and
then find the end of the file. -/
structure Faithful (maxlen : Nat) (input : List UInt8) (lines : List Line) : Prop where
  stored : lines.map Line.stored = CString.lines maxlen input ++ [[]]
  all : (lines.map Line.stored).flatten = input
  counted : ∀ line ∈ lines, line.Counted maxlen

/-- What a `read` of `sizeof(read_buf)` bytes before the end of the file returns. -/
def ReadResult.Ok : ReadResult → Prop
  | .data chunk => chunk ≠ [] ∧ chunk.length ≤ MAXLINE
  | .eintr => True
  | .fail => False

instance (x : ReadResult) : Decidable x.Ok := by cases x <;> unfold ReadResult.Ok <;> infer_instance

-- ---------------------------------------------------------------------------
-- my_read
-- ---------------------------------------------------------------------------

variable {maxlen fuel k : Nat} {r r' : Reader} {input : List ReadResult}
variable {rest : List UInt8} {line : Line} {c : UInt8}

def Reader.Ok (r : Reader) : Prop := ∀ x ∈ r.input, x.Ok

/-- The chunks make no difference. -/
theorem again_ok (h : ∀ x ∈ input, x.Ok) :
    ∃ chunk rest, again input = (some chunk, rest) ∧ chunk ++ content rest = content input ∧
      (∀ x ∈ rest, x.Ok) ∧ (chunk = [] → content rest = []) := by
  induction input with
  | nil => exact ⟨[], [], rfl, rfl, h, fun _ => rfl⟩
  | cons x input ih =>
    have hrest : ∀ x ∈ input, x.Ok := fun y hy => h y (List.mem_cons_of_mem _ hy)
    cases x with
    | data chunk =>
      have hx := h (.data chunk) List.mem_cons_self
      exact ⟨chunk, input, rfl, rfl, hrest, fun hnil => absurd hnil hx.1⟩
    | eintr => exact ih hrest
    | fail => exact absurd (h .fail List.mem_cons_self) id

theorem myRead_byte (h : r.Ok) (hbytes : r.bytes = c :: rest) :
    ∃ r', myRead r = (.byte c, r') ∧ r'.bytes = rest ∧ r'.Ok := by
  obtain ⟨unread, input⟩ := r
  cases unread with
  | cons b unread =>
    rw [Reader.bytes, List.cons_append, List.cons.injEq] at hbytes
    obtain ⟨rfl, hrest⟩ := hbytes
    exact ⟨⟨unread, input⟩, rfl, hrest, h⟩
  | nil =>
    obtain ⟨chunk, input', hagain, hcontent, hok, hnil⟩ := again_ok h
    have hall : content input = c :: rest := hbytes
    rw [hall] at hcontent
    cases chunk with
    | nil =>
      rw [hnil rfl] at hcontent
      cases hcontent
    | cons b chunk =>
      rw [List.cons_append, List.cons.injEq] at hcontent
      obtain ⟨rfl, hrest⟩ := hcontent
      exact ⟨⟨chunk, input'⟩, by simp only [myRead, hagain], hrest, hok⟩

theorem myRead_eof (h : r.Ok) (hbytes : r.bytes = []) :
    ∃ r', myRead r = (.eof, r') ∧ r'.bytes = [] ∧ r'.Ok := by
  obtain ⟨unread, input⟩ := r
  obtain ⟨hunread, hinput⟩ := List.append_eq_nil_iff.mp hbytes
  simp only at hunread hinput
  subst hunread
  obtain ⟨chunk, input', hagain, hcontent, hok, -⟩ := again_ok h
  rw [hinput] at hcontent
  obtain ⟨rfl, hrest⟩ := List.append_eq_nil_iff.mp hcontent
  exact ⟨⟨[], input'⟩, by simp only [myRead, hagain], hrest, hok⟩

-- ---------------------------------------------------------------------------
-- One call
-- ---------------------------------------------------------------------------

theorem toInt_one : toInt 1 = 1 := toInt_natCast 1 (by decide)

theorem one_lt_maxlen (hmax : 2 ≤ maxlen) : toSizeT 1 < maxlen := by
  have hone : toSizeT 1 = 1 := toSizeT_natCast 1 (by decide)
  omega

/-- How a call ends: at a newline, at one of the two other exits with a count
that is one ahead, or with nothing. -/
inductive Line.Ends (maxlen : Nat) (line : Line) : Prop
  | newline : line.n = toInt line.stored.length → line.stored.getLast? = some 10 → Ends maxlen line
  | ahead : line.n = toInt (line.stored.length + 1) → (toSizeT line.n < maxlen → line.n ≠ 1) →
      Ends maxlen line
  | eof : line.n = 0 → Ends maxlen line

theorem loop_ends (stored : List UInt8) (h : r.Ok) (hfuel : r.bytes.length < fuel) :
    ∃ line r', loop maxlen fuel (toInt (stored.length + 1)) stored r = some (line, r') ∧ r'.Ok ∧
      line.stored ++ r'.bytes = stored ++ r.bytes ∧ line.Ends maxlen := by
  induction fuel generalizing stored r with
  | zero => exact absurd hfuel (Nat.not_lt_zero _)
  | succ fuel ih =>
    by_cases hn : toSizeT (toInt (stored.length + 1)) < maxlen
    · simp only [loop, if_pos hn]
      cases hbytes : r.bytes with
      | nil =>
        obtain ⟨r', hread, hnil, hok⟩ := myRead_eof h hbytes
        simp only [hread]
        by_cases hone : toInt (stored.length + 1) = 1
        · simp only [if_pos hone]
          exact ⟨_, r', rfl, hok, by rw [hnil], .eof rfl⟩
        · simp only [if_neg hone]
          exact ⟨_, r', rfl, hok, by rw [hnil], .ahead rfl fun _ => hone⟩
      | cons c rest =>
        obtain ⟨r', hread, hrest, hok⟩ := myRead_byte h hbytes
        simp only [hread]
        by_cases hc : c = 10
        · subst hc
          simp only [if_true]
          refine ⟨_, r', rfl, hok, by simp [hrest], .newline ?_ (by simp)⟩
          rw [List.length_append, List.length_singleton, Int.natCast_add, Int.natCast_one]
        · simp only [if_neg hc]
          have hnext : toInt (toInt (stored.length + 1) + 1) = toInt ((stored ++ [c]).length + 1) := by
            rw [List.length_append, List.length_singleton]
            unfold toInt
            omega
          rw [hnext]
          obtain ⟨line, r'', hloop, hok', happ, hends⟩ := ih (stored ++ [c]) hok
            (by rw [hbytes, List.length_cons] at hfuel; rw [hrest]; omega)
          exact ⟨line, r'', hloop, hok', by rw [happ, hrest]; simp, hends⟩
    · simp only [loop, if_neg hn]
      exact ⟨_, r, rfl, h, rfl, .ahead rfl fun hlt => absurd hlt hn⟩

theorem readline_ends (maxlen : Nat) (h : r.Ok) : ∃ line r', readline maxlen r = some (line, r') ∧ r'.Ok ∧
    line.stored ++ r'.bytes = r.bytes ∧ line.Ends maxlen := by
  have hloop := @loop_ends maxlen _ _ [] h (Nat.lt_succ_self _)
  simp only [List.length_nil, Int.natCast_zero, Int.zero_add, toInt_one] at hloop
  exact hloop

/-- A call that returns a positive count has stored something. -/
theorem stored_ne_nil (hmax : 2 ≤ maxlen) (h : line.Ends maxlen) (hn : line.n > 0) :
    line.stored ≠ [] := by
  intro hnil
  cases h with
  | newline hcount hlast =>
    rw [hnil] at hlast
    cases hlast
  | ahead hcount hone =>
    rw [hnil, List.length_nil, Int.natCast_zero, Int.zero_add, toInt_one] at hcount
    refine hone ?_ hcount
    rw [hcount]
    exact one_lt_maxlen hmax
  | eof hzero => omega

/-- A line that fits, and that an `int` can count, is taken as it is. -/
theorem loop_line (stored : List UInt8) (h : r.Ok) (hfuel : r.bytes.length < fuel)
    (hline : readLine count r.bytes = (l, rest)) (hlast : l.getLast? = some 10)
    (hmax : stored.length + 1 + count = maxlen) (hint : stored.length + l.length < 2147483648) :
    ∃ r', loop maxlen fuel (stored.length + 1 : Nat) stored r =
        some (⟨stored ++ l, true, (stored ++ l).length⟩, r') ∧ r'.Ok ∧ r'.bytes = rest := by
  induction fuel generalizing stored r count l with
  | zero => exact absurd hfuel (Nat.not_lt_zero _)
  | succ fuel ih =>
    cases count with
    | zero =>
      cases hline
      cases hlast
    | succ count =>
      cases hbytes : r.bytes with
      | nil =>
        rw [hbytes] at hline
        cases hline
        cases hlast
      | cons c rest' =>
        obtain ⟨r', hread, hrest, hok⟩ := myRead_byte h hbytes
        have hpos : 0 < l.length := List.length_pos_iff.mpr (by rintro rfl; cases hlast)
        have hn : toSizeT (stored.length + 1 : Nat) < maxlen := by
          rw [toSizeT_natCast _ (by omega)]
          omega
        simp only [loop, if_pos hn, hread]
        rw [hbytes, readLine] at hline
        by_cases hc : c = 10
        · subst hc
          simp only [if_true, Prod.mk.injEq] at hline ⊢
          obtain ⟨rfl, rfl⟩ := hline
          refine ⟨r', ?_, hok, hrest⟩
          rw [List.length_append, List.length_singleton]
        · simp only [if_neg hc, Prod.mk.injEq] at hline ⊢
          obtain ⟨rfl, hrest'⟩ := hline
          have htail : (readLine count rest').1 ≠ [] := by
            intro hnil
            rw [hnil, List.getLast?_singleton, Option.some.injEq] at hlast
            exact hc hlast
          rw [List.getLast?_cons_of_ne_nil htail] at hlast
          rw [List.length_cons] at hint
          have htailpos := List.length_pos_iff.mpr htail
          have hlen : (stored ++ [c]).length = stored.length + 1 := by simp
          have hnext : toInt ((stored.length + 1 : Nat) + 1) = ((stored ++ [c]).length + 1 : Nat) := by
            rw [hlen, ← toInt_natCast (stored.length + 1 + 1) (by omega)]
            rfl
          have hloop := ih (stored ++ [c]) hok
            (by rw [hbytes, List.length_cons] at hfuel; rw [hrest]; omega)
            (by rw [hrest]; exact Prod.ext rfl hrest') hlast (by rw [hlen]; omega) (by rw [hlen]; omega)
          rw [hnext]
          simpa using hloop

theorem readline_line (hmax : 2 ≤ maxlen) (h : r.Ok) (hline : readLine (maxlen - 1) r.bytes = (l, rest))
    (hlast : l.getLast? = some 10) (hint : l.length < 2147483648) :
    ∃ r', readline maxlen r = some (⟨l, true, l.length⟩, r') ∧ r'.Ok ∧ r'.bytes = rest := by
  have hsum : ([] : List UInt8).length + 1 + (maxlen - 1) = maxlen := by
    rw [List.length_nil]
    omega
  exact loop_line [] h (Nat.lt_succ_self _) hline hlast hsum (by simpa using hint)

theorem readline_eof (hmax : 2 ≤ maxlen) (h : r.Ok) (hbytes : r.bytes = []) :
    ∃ r', readline maxlen r = some (⟨[], false, 0⟩, r') ∧ r'.Ok ∧ r'.bytes = [] := by
  obtain ⟨r', hread, hnil, hok⟩ := myRead_eof h hbytes
  have hn := one_lt_maxlen hmax
  exact ⟨r', by simp only [readline, loop, if_pos hn, hread, if_true], hok, hnil⟩

/-- What the caller finds in its buffer after a call that counted right. -/
theorem counted_line {l : List UInt8} (h : l.length < maxlen) : (Line.mk l true l.length).Counted maxlen := by
  have hbuffer (block : List UInt8) (hblock : block.length = maxlen) :
      (Line.mk l true l.length).buffer block = l ++ 0 :: block.drop (l.length + 1) := by
    have hstore := store_append [] block (l ++ [0]) (by simp; omega)
    simpa [Line.buffer] using hstore
  refine ⟨rfl, h, fun _ => rfl, fun block hblock hne => ?_, fun block hblock _ => ?_⟩
  · have hpos : 0 < l.length := List.length_pos_iff.mpr hne
    rw [hbuffer block hblock, List.getLast?_eq_getElem?, Int.toNat_natCast,
      List.getElem?_append_left (Nat.sub_lt hpos Nat.one_pos)]
  · rw [hbuffer block hblock, Int.toNat_natCast, List.getElem?_append_right (Nat.le_refl _), Nat.sub_self]
    rfl

theorem counted_eof (hmax : 2 ≤ maxlen) : (Line.mk [] false 0).Counted maxlen :=
  ⟨rfl, Nat.lt_of_lt_of_le Nat.two_pos hmax, fun h => absurd rfl h, fun _ _ h => absurd rfl h,
    fun _ _ h => absurd rfl h⟩

/-- A count that is right belongs to a line with its newline. -/
theorem newline_of_counted (h : line.Ends maxlen) (hc : line.Counted maxlen) (hne : line.stored ≠ []) :
    line.stored.getLast? = some 10 ∧ line.stored.length < 2147483648 := by
  have hpos := List.length_pos_iff.mpr hne
  have hcount := hc.count
  cases h with
  | newline hn hlast =>
    refine ⟨hlast, ?_⟩
    rw [hn] at hcount
    unfold toInt at hcount
    omega
  | ahead hn =>
    rw [hn] at hcount
    unfold toInt at hcount
    omega
  | eof hzero => omega

-- ---------------------------------------------------------------------------
-- All the calls
-- ---------------------------------------------------------------------------

theorem callsFuel_ends (hmax : 2 ≤ maxlen) (h : r.Ok) (hfuel : r.bytes.length < fuel) :
    ∃ lines, callsFuel maxlen fuel r = some lines ∧ ∀ line ∈ lines, line.Ends maxlen := by
  induction fuel generalizing r with
  | zero => exact absurd hfuel (Nat.not_lt_zero _)
  | succ fuel ih =>
    obtain ⟨line, r', hcall, hok, happ, hends⟩ := readline_ends maxlen h
    by_cases hn : line.n > 0
    · have hpos := List.length_pos_iff.mpr (stored_ne_nil hmax hends hn)
      have hlen := congrArg List.length happ
      rw [List.length_append] at hlen
      obtain ⟨lines, hlines, hall⟩ := ih hok (by omega)
      refine ⟨line :: lines, ?_, List.forall_mem_cons.mpr ⟨hends, hall⟩⟩
      simp only [callsFuel, hcall, Option.bind_some, if_pos hn, hlines, Option.map_some]
    · refine ⟨[line], ?_, List.forall_mem_singleton.mpr hends⟩
      simp only [callsFuel, hcall, Option.bind_some, if_neg hn]

/-- Lines that fit, each with its newline, are taken one by one. -/
theorem callsFuel_lines (hmax : 2 ≤ maxlen) (h : r.Ok)
    (hlines : ∀ l ∈ linesFuel maxlen fuel r.bytes, l.getLast? = some 10 ∧ l.length < 2147483648)
    (hfuel : r.bytes.length ≤ fuel) : callsFuel maxlen (fuel + 1) r =
      some ((linesFuel maxlen fuel r.bytes).map (fun l => ⟨l, true, l.length⟩) ++ [⟨[], false, 0⟩]) := by
  have hend {fuel : Nat} {r : Reader} (h : r.Ok) (hbytes : r.bytes = []) :
      callsFuel maxlen (fuel + 1) r = some [⟨[], false, 0⟩] := by
    obtain ⟨r', hcall, -⟩ := readline_eof hmax h hbytes
    simp [callsFuel, hcall]
  induction fuel generalizing r with
  | zero => exact hend h (List.length_eq_zero_iff.mp (Nat.le_zero.mp hfuel))
  | succ fuel ih =>
    by_cases hnil : r.bytes = []
    · rw [hend h hnil, hnil]
      rfl
    · have hunroll : linesFuel maxlen (fuel + 1) r.bytes = (readLine (maxlen - 1) r.bytes).1 ::
          linesFuel maxlen fuel (readLine (maxlen - 1) r.bytes).2 := by
        rw [linesFuel, fgets, if_neg hnil]
      rw [hunroll] at hlines ⊢
      obtain ⟨⟨hlast, hint⟩, hrest⟩ := List.forall_mem_cons.mp hlines
      obtain ⟨r', hcall, hok, hbytes⟩ := readline_line hmax h rfl hlast hint
      have hpos := List.length_pos_iff.mpr (readLine_ne_nil (show 1 < maxlen by omega) hnil)
      have hlen := congrArg List.length (readLine_append (maxlen - 1) r.bytes)
      rw [List.length_append] at hlen
      rw [← hbytes] at hrest hlen ⊢
      have hcalls := ih hok hrest (by omega)
      rw [callsFuel, hcall, Option.bind_some]
      simp only
      rw [if_pos (by omega), hcalls]
      rfl

theorem faithful_lines (hmax : 2 ≤ maxlen) (stream : List UInt8) :
    Faithful maxlen stream
      ((CString.lines maxlen stream).map (fun l => ⟨l, true, l.length⟩) ++ [⟨[], false, 0⟩]) := by
  have hstored : ((CString.lines maxlen stream).map (fun l => Line.mk l true l.length) ++
      [Line.mk [] false 0]).map Line.stored = CString.lines maxlen stream ++ [[]] := by
    simp [Function.comp_def]
  refine ⟨hstored, ?_, fun line hline => ?_⟩
  · rw [hstored, List.flatten_append, lines_flatten (by omega)]
    simp
  · rcases List.mem_append.mp hline with hmem | hmem
    · obtain ⟨l, hl, rfl⟩ := List.mem_map.mp hmem
      have hle := length_of_mem_lines hl
      exact counted_line (by omega)
    · rw [List.mem_singleton.mp hmem]
      exact counted_eof hmax

/-- The calls are faithful to the input exactly where each of its lines has a
newline, takes with it at most `maxlen - 1` bytes, and can be counted by an `int`. -/
theorem readline_faithful_iff (maxlen : Nat) (input : List ReadResult) (hmax : 2 ≤ maxlen)
    (hinput : ∀ x ∈ input, x.Ok) : ∃ lines, calls maxlen input = some lines ∧
      (Faithful maxlen (content input) lines ↔
        ∀ l ∈ CString.lines maxlen (content input), l.getLast? = some 10 ∧ l.length < 2147483648) := by
  have hok : (Reader.mk [] input).Ok := hinput
  obtain ⟨lines, hcalls, hends⟩ := callsFuel_ends hmax hok (Nat.lt_succ_self (content input).length)
  refine ⟨lines, hcalls, fun h l hl => ?_, fun h => ?_⟩
  · have hmem : l ∈ lines.map Line.stored := by
      rw [h.stored]
      exact List.mem_append_left _ hl
    obtain ⟨line, hline, rfl⟩ := List.mem_map.mp hmem
    exact newline_of_counted (hends line hline) (h.counted line hline) (ne_nil_of_mem_lines (by omega) hl)
  · have hall := callsFuel_lines hmax hok h (Nat.le_refl (content input).length)
    rw [hcalls] at hall
    rw [Option.some.inj hall]
    exact faithful_lines hmax (content input)

/-- Two lines, the first one in two chunks with a signal in between. -/
theorem readline_faithful_two : ∃ lines,
    calls MAXLINE [.data [97], .eintr, .data [98, 10, 99], .data [10]] = some lines ∧
      Faithful MAXLINE [97, 98, 10, 99, 10] lines := by
  obtain ⟨lines, hcalls, hiff⟩ := readline_faithful_iff MAXLINE
    [.data [97], .eintr, .data [98, 10, 99], .data [10]] (by decide) (by decide)
  exact ⟨lines, hcalls, hiff.mpr (by decide +kernel)⟩

/-- A line without a newline: three bytes are stored and 4 is returned. -/
theorem readline_counts_ahead : calls MAXLINE [.data [97, 98, 99]] =
      some [⟨[97, 98, 99], true, 4⟩, ⟨[], false, 0⟩] ∧
    ¬ Faithful MAXLINE [97, 98, 99] [⟨[97, 98, 99], true, 4⟩, ⟨[], false, 0⟩] := by
  refine ⟨by decide +kernel, fun h => ?_⟩
  have hcount := (h.counted _ List.mem_cons_self).count
  exact absurd hcount (by decide)

end DdsAuto.UnixLib
