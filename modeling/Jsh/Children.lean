import Jsh.Library.Blocks
import Jsh.Numbers
import Jsh.ShellMoves
import Jsh.Words

/-!
# Children of a process

`get_children` of `proc.c`, which collects the content of a file of `/proc` from what
`read` returns. A read of memory that has not been written, or over the end of a
buffer, has no defined result.
-/

set_option autoImplicit false

namespace Jsh

open Library

/-! ## Reading the file -/

/-- `BUFSIZ` of `stdio.h` -/
def bufsiz : Nat := 8192

/-- The variables of the reading loop: `buf`, `string` and `total_size`. -/
structure ReadLoop where
  buf : Block Char
  string : Block Char
  totalSize : Nat
  deriving DecidableEq, Repr

/-- Before the loop, `buf` is filled with NUL and `string` is empty. -/
def ReadLoop.start : ReadLoop :=
  { buf := List.replicate bufsiz .terminator, string := [.terminator], totalSize := 0 }

/-- The body of the loop once `read` has delivered a chunk, empty at the end of the
file. -/
def ReadLoop.step (loop : ReadLoop) (chunk : CString) : Option ReadLoop := do
  let buf ← loop.buf.write 0 (chunk.map .symbol)
  let first ← loop.string.text
  let second ← buf.text
  let newString ← (Block.allocate (loop.totalSize + chunk.length + 1)).format
    (loop.totalSize + chunk.length) (first ++ second)
  return { buf, string := newString, totalSize := loop.totalSize + chunk.length }

/-- What `get_children` returns: `NULL` with the size 0, or an array and its size. -/
inductive Children where
  | null
  | array (pids : List Int)
  | undefined
  deriving DecidableEq, Repr

/-- The outcome of the reading loop. -/
inductive ReadResult where
  | failed
  | content (content : CString)
  | undefined
  deriving DecidableEq, Repr

/-- The loop over the results of `read`, with `none` for -1; after the last of them it
returns 0. The string is terminated behind the loop. -/
def readLoop (loop : ReadLoop) : List (Option CString) → ReadResult
  | [] => finishReading (loop.step [])
  | none :: _ => .failed
  | some chunk :: rest =>
      if chunk = [] then finishReading (loop.step [])
      else
        match loop.step chunk with
        | none => .undefined
        | some loop => readLoop loop rest
where
  finishReading (finished : Option ReadLoop) : ReadResult :=
    match (do
      let loop ← finished
      let string ← loop.string.write loop.totalSize [.terminator]
      string.text : Option CString) with
    | none => .undefined
    | some content => .content content

/-! ## The pids -/

/-- The loop over the words of the file. -/
def parsePids : List CString → JobAction (Option (List Int))
  | [] => return some []
  | word :: words => do
      match ← parseIntmaxT word stderrFileno with
      | none => return none
      | some cast =>
          if intMin ≤ cast ∧ cast ≤ intMax then
            return (← parsePids words).map (cast :: ·)
          else return none

/-- `snprintf(path, PATH_MAX, "/proc/%d/task/%d/children", pid, pid)` -/
def childrenPath (pid : Int) : CString :=
  "/proc/".toList ++ decimal pid ++ "/task/".toList ++ decimal pid ++ "/children".toList

/-- `get_children`. A path that cannot be opened has no reads. -/
def getChildren (reads : CString → Option (List (Option CString))) (pid : Int) :
    JobAction Children := do
  match reads (childrenPath pid) with
  | none => return .null
  | some results =>
      match readLoop .start results with
      | .failed => return .null
      | .undefined => return .undefined
      | .content content =>
          match ← parsePids (splitString content commandSeparator).tokens with
          | none => return .null
          | some pids => return .array pids

/-! ## What the loop collects -/

/-- After a read: `buf` holds the bytes `seen`, those of earlier reads behind those of
the last one, and `string` holds `kept`, one byte less than `total_size`. -/
structure ReadLoop.Holds (loop : ReadLoop) (seen kept : CString) : Prop where
  buf : loop.buf = seen.map .symbol ++ List.replicate (bufsiz - seen.length) .terminator
  string : loop.string = Block.terminated kept ++ [.unset]
  totalSize : loop.totalSize = kept.length + 1

/-- The bytes `buf` holds after a read. -/
theorem write_buf {seen chunk : CString} (bounded : seen.length ≤ bufsiz)
    (fits : chunk.length ≤ bufsiz) :
    Block.write (seen.map .symbol ++ List.replicate (bufsiz - seen.length) .terminator) 0
        (chunk.map .symbol) =
      some ((chunk ++ seen.drop chunk.length).map .symbol ++
        List.replicate (bufsiz - (chunk ++ seen.drop chunk.length).length) .terminator) := by
  rw [Block.write_start (by simp; omega), List.length_map, List.drop_append, List.length_map,
    ← List.map_drop, List.drop_replicate, List.map_append, List.append_assoc]
  congr 4
  simp only [List.length_append, List.length_drop]
  omega

theorem text_buf {seen : CString} (short : seen.length < bufsiz) :
    Block.text (seen.map .symbol ++ List.replicate (bufsiz - seen.length) .terminator) =
      some seen := by
  obtain ⟨left, shape⟩ : ∃ left, bufsiz - seen.length = left + 1 :=
    ⟨bufsiz - seen.length - 1, by omega⟩
  rw [shape, Block.text_symbols, List.replicate_succ]
  simp [Block.text]

/-- A chunk as long as `buf` leaves no terminator in it. -/
theorem ReadLoop.step_full {loop : ReadLoop} {chunk : CString} (buf : loop.buf.length = bufsiz)
    (full : chunk.length = bufsiz) : loop.step chunk = none := by
  have written : loop.buf.write 0 (chunk.map .symbol) = some (chunk.map .symbol) := by
    rw [Block.write_start (by rw [List.length_map]; omega), List.drop_of_length_le
      (by rw [List.length_map]; omega), List.append_nil]
  rw [ReadLoop.step, written, Option.bind_eq_bind, Option.bind_some, Block.text_symbols_none]
  cases loop.string.text <;> rfl

/-- The loop's body from the four operations it is made of. -/
theorem ReadLoop.step_eq {loop : ReadLoop} {chunk first second : CString} {buf string : Block Char}
    (written : loop.buf.write 0 (chunk.map .symbol) = some buf)
    (held : loop.string.text = some first) (found : buf.text = some second)
    (formatted : (Block.allocate (loop.totalSize + chunk.length + 1)).format
      (loop.totalSize + chunk.length) (first ++ second) = some string) :
    loop.step chunk = some { buf, string, totalSize := loop.totalSize + chunk.length } := by
  simp [ReadLoop.step, written, held, found, formatted]

/-- Every read but the first adds its chunk to the string. -/
theorem ReadLoop.step_later {loop : ReadLoop} {seen kept chunk : CString}
    (holds : loop.Holds seen kept) (seenShort : seen.length < bufsiz)
    (short : chunk.length < bufsiz) :
    ∃ next, loop.step chunk = some next ∧
      next.Holds (chunk ++ seen.drop chunk.length) (kept ++ chunk) := by
  have total := holds.totalSize
  have seenNext : (chunk ++ seen.drop chunk.length).length < bufsiz := by
    simp only [List.length_append, List.length_drop]
    omega
  have written : loop.buf.write 0 (chunk.map .symbol) = _ :=
    holds.buf ▸ write_buf seenShort.le short.le
  have held : loop.string.text = some kept := by
    rw [holds.string, Block.text_terminated_append]
  have cut : (kept ++ (chunk ++ seen.drop chunk.length)).take
      (loop.totalSize + chunk.length - 1) = kept ++ chunk := by
    rw [total, ← List.append_assoc]
    exact List.take_left' (by simp only [List.length_append]; omega)
  have room : (kept ++ chunk).length + 1 = loop.totalSize + chunk.length := by
    simp only [List.length_append]
    omega
  have formatted := Block.format_of_take (by omega) cut
    (show _ ≤ (Block.allocate (loop.totalSize + chunk.length + 1)).length by simp; omega)
  refine ⟨_, ReadLoop.step_eq written held (text_buf seenNext) formatted, rfl, ?_, room.symm⟩
  rw [room]
  simp [Block.allocate]

/-- The first read loses its last byte. -/
theorem ReadLoop.step_first {chunk : CString} (nonempty : chunk ≠ [])
    (short : chunk.length < bufsiz) :
    ∃ next, ReadLoop.start.step chunk = some next ∧ next.Holds chunk chunk.dropLast := by
  have positive := List.length_pos_iff.mpr nonempty
  have written : ReadLoop.start.buf.write 0 (chunk.map .symbol) = _ :=
    write_buf (show ([] : CString).length ≤ bufsiz from Nat.zero_le _) short.le
  rw [List.drop_nil, List.append_nil] at written
  have cut : ([] ++ chunk).take (0 + chunk.length - 1) = chunk.dropLast := by
    rw [List.nil_append, Nat.zero_add, List.dropLast_eq_take]
  have room : chunk.dropLast.length + 1 = 0 + chunk.length := by
    rw [List.length_dropLast]
    omega
  have formatted := Block.format_of_take (by omega) cut
    (show _ ≤ (Block.allocate (0 + chunk.length + 1)).length by simp)
  refine ⟨_, ReadLoop.step_eq written rfl (text_buf short) formatted, rfl, ?_, room.symm⟩
  rw [room]
  simp [Block.allocate]

/-- What the loop returns when `read` returns 0. -/
theorem readLoop_nil {loop : ReadLoop} {seen kept : CString} (holds : loop.Holds seen kept)
    (short : seen.length < bufsiz) : readLoop loop [] = .content kept := by
  have empty : ([] : CString).length < bufsiz := by decide
  obtain ⟨next, stepped, after⟩ := ReadLoop.step_later holds short empty
  have string := after.string
  have total := after.totalSize
  rw [List.append_nil] at string total
  have written := Block.write_after (Block.terminated kept) [.terminator] [.unset] (by simp)
  rw [Block.terminated_length, ← total, ← string] at written
  simp [readLoop, readLoop.finishReading, stepped, written]

/-- The content the loop collects from the later reads, if none of them fills `buf`. -/
theorem readLoop_later {loop : ReadLoop} {seen kept : CString} (holds : loop.Holds seen kept)
    (seenShort : seen.length < bufsiz) {chunks : List CString}
    (nonempty : ∀ chunk ∈ chunks, chunk ≠ [])
    (bounded : ∀ chunk ∈ chunks, chunk.length ≤ bufsiz) :
    readLoop loop (chunks.map some) =
      if ∀ chunk ∈ chunks, chunk.length < bufsiz then .content (kept ++ chunks.flatten)
      else .undefined := by
  induction chunks generalizing loop seen kept with
  | nil => simpa using readLoop_nil holds seenShort
  | cons chunk chunks ih =>
      have size : loop.buf.length = bufsiz := by
        rw [holds.buf, List.length_append, List.length_map, List.length_replicate]
        omega
      rw [List.map_cons, readLoop, if_neg (nonempty chunk (.head _))]
      by_cases short : chunk.length < bufsiz
      · obtain ⟨next, stepped, after⟩ := ReadLoop.step_later holds seenShort short
        have seenNext : (chunk ++ seen.drop chunk.length).length < bufsiz := by
          simp only [List.length_append, List.length_drop]
          omega
        have others := ih after seenNext (fun other member => nonempty other (.tail _ member))
          fun other member => bounded other (.tail _ member)
        rw [stepped]
        simpa [short] using others
      · have full : chunk.length = bufsiz := by
          have most := bounded chunk (.head _)
          omega
        rw [ReadLoop.step_full size full]
        simp [full]

/-- The content the loop collects: that of the file without the last byte of the first
chunk. -/
theorem readLoop_start {chunks : List CString} (nonempty : ∀ chunk ∈ chunks, chunk ≠ [])
    (bounded : ∀ chunk ∈ chunks, chunk.length ≤ bufsiz) :
    readLoop .start (chunks.map some) =
      if ∀ chunk ∈ chunks, chunk.length < bufsiz then
        .content ((chunks.headD []).dropLast ++ chunks.tail.flatten)
      else .undefined := by
  cases chunks with
  | nil =>
      have written : ReadLoop.start.buf.write 0 [] = some ReadLoop.start.buf := by
        rw [Block.write_start (Nat.zero_le _)]
        rfl
      have found : ReadLoop.start.buf.text = some [] :=
        text_buf (show ([] : CString).length < bufsiz by decide)
      have stepped : ReadLoop.start.step [] =
          some { buf := ReadLoop.start.buf, string := [.unset], totalSize := 0 } :=
        ReadLoop.step_eq written rfl found rfl
      simp only [List.map_nil, readLoop, readLoop.finishReading, stepped]
      rfl
  | cons chunk chunks =>
      rw [List.map_cons, readLoop, if_neg (nonempty chunk (.head _))]
      by_cases short : chunk.length < bufsiz
      · obtain ⟨next, stepped, after⟩ := ReadLoop.step_first (nonempty chunk (.head _)) short
        have others := readLoop_later after short
          (fun other member => nonempty other (.tail _ member))
          fun other member => bounded other (.tail _ member)
        rw [stepped]
        simpa [short] using others
      · have full : chunk.length = bufsiz := by
          have most := bounded chunk (.head _)
          omega
        rw [ReadLoop.step_full (by simp [ReadLoop.start]) full]
        simp [full]

/-! ## The text of the file -/

/-- The pids in decimal, each followed by a space. -/
def childrenText (pids : List Nat) : CString :=
  pids.flatMap fun pid : Nat => decimal (pid : Int) ++ [' ']

theorem childrenText_cons (pid : Nat) (pids : List Nat) :
    childrenText (pid :: pids) = decimal (pid : Int) ++ ' ' :: childrenText pids := by
  simp [childrenText]

theorem decimal_ne_nil (number : Nat) : decimal (number : Int) ≠ [] :=
  Nat.toDigits_ne_nil

theorem decimal_digits (number : Nat) : ∀ char ∈ decimal (number : Int), char.isDigit = true :=
  fun _ member => Nat.isDigit_of_mem_toDigits (by decide) (by decide) member

theorem space_not_mem_decimal (number : Nat) : ' ' ∉ decimal (number : Int) := by
  intro member
  exact absurd (decimal_digits number ' ' member) (by decide)

theorem runs_childrenText (pids : List Nat) :
    runs (childrenText pids) = pids.map fun pid : Nat => decimal (pid : Int) := by
  induction pids with
  | nil => exact runs_nil
  | cons pid pids ih =>
      rw [childrenText_cons, runs_append_space,
        runs_of_not_mem (decimal_ne_nil pid) (space_not_mem_decimal pid), ih]
      rfl

theorem count_childrenText (pids : List Nat) : (childrenText pids).count ' ' = pids.length := by
  induction pids with
  | nil => rfl
  | cons pid pids ih =>
      have none := List.count_eq_zero.mpr (space_not_mem_decimal pid)
      simp [childrenText_cons, none, ih]

theorem mem_childrenText {pids : List Nat} {char : Char} (member : char ∈ childrenText pids) :
    char = ' ' ∨ char.isDigit = true := by
  obtain ⟨pid, _, inside⟩ := List.mem_flatMap.mp member
  cases List.mem_append.mp inside with
  | inl digit => exact .inr (decimal_digits pid char digit)
  | inr space => exact .inl (List.mem_singleton.mp space)

theorem childrenText_ends {pids : List Nat} {before after : CString}
    (split : childrenText pids = before ++ after) (nonempty : after ≠ []) :
    ∃ front, after = front ++ [' '] := by
  have last : ∀ pids : List Nat, pids ≠ [] → ∃ front, childrenText pids = front ++ [' '] := by
    intro pids some
    obtain ⟨others, pid, rfl⟩ := List.eq_nil_or_concat pids |>.resolve_left some
    exact ⟨childrenText others ++ decimal (pid : Int), by simp [childrenText]⟩
  obtain ⟨front, char, rfl⟩ := List.eq_nil_or_concat after |>.resolve_left nonempty
  have some : pids ≠ [] := by
    rintro rfl
    simp [childrenText] at split
  obtain ⟨whole, shape⟩ := last pids some
  rw [shape, List.concat_eq_append, ← List.append_assoc] at split
  exact ⟨front, by rw [List.concat_eq_append, (List.append_inj_right' split rfl).symm]⟩

/-! ## The pids of the words -/

theorem digitsValue_lt (digits : CString) (value : Nat) :
    digitsValue value digits < (value + 1) * 10 ^ digits.length := by
  induction digits generalizing value with
  | nil => simp [digitsValue]
  | cons char rest ih =>
      rw [digitsValue, List.length_cons, Nat.pow_succ]
      by_cases digit : char.isDigit = true
      · have most : char.toNat - '0'.toNat ≤ 9 := by
          simp only [Char.isDigit, Bool.and_eq_true, decide_eq_true_eq] at digit
          have above : char.toNat ≤ '9'.toNat := UInt32.le_iff_toNat_le.mp digit.2
          have nine : '9'.toNat = 57 := rfl
          have zero : '0'.toNat = 48 := rfl
          omega
        rw [if_pos digit]
        calc digitsValue (value * 10 + (char.toNat - '0'.toNat)) rest
            < (value * 10 + (char.toNat - '0'.toNat) + 1) * 10 ^ rest.length := ih _
          _ ≤ (value + 1) * 10 * 10 ^ rest.length := Nat.mul_le_mul_right _ (by omega)
          _ = (value + 1) * (10 ^ rest.length * 10) := by
            rw [Nat.mul_assoc, Nat.mul_comm 10]
      · have positive : 0 < 10 ^ rest.length * 10 :=
          Nat.mul_pos (Nat.pow_pos (by decide)) (by decide)
        rw [if_neg digit]
        exact lt_of_lt_of_le (Nat.lt_succ_self value) (Nat.le_mul_of_pos_right _ positive)

/-- A string of digits is at least as long as its value in decimal. -/
theorem decimal_length_le {word : CString} (nonempty : word ≠ [])
    (all : ∀ char ∈ word, char.isDigit = true) {pid : Nat}
    (read : strtoimax word = ((pid : Int), [])) :
    (decimal (pid : Int)).length ≤ word.length := by
  have below := digitsValue_lt word 0
  rw [strtoimax_digits nonempty all, Prod.mk.injEq, Int.natCast_inj] at read
  rw [read.1, Nat.zero_add, Nat.one_mul] at below
  exact (Nat.length_toDigits_le_iff (by decide) (List.length_pos_iff.mpr nonempty)).mpr below

theorem parsePids_decimals {pids : List Nat} (fit : ∀ pid ∈ pids, (pid : Int) ≤ intMax)
    (control : Control) :
    ∃ after, parsePids (pids.map fun pid : Nat => decimal (pid : Int)) control =
      .ok (some (pids.map fun pid : Nat => (pid : Int))) after := by
  induction pids generalizing control with
  | nil => exact ⟨control, rfl⟩
  | cons pid pids ih =>
      have small := fit pid (.head _)
      have inside : ¬ (pid : Int) > intmaxMax := by
        unfold intmaxMax
        unfold intMax at small
        omega
      have range : intMin ≤ (pid : Int) ∧ (pid : Int) ≤ intMax :=
        ⟨by unfold intMin; omega, small⟩
      obtain ⟨middle, _, parsed⟩ := parseIntmaxT_decimal pid stderrFileno control
      obtain ⟨after, others⟩ := ih (fun other member => fit other (.tail _ member)) middle
      rw [if_neg inside] at parsed
      refine ⟨after, ?_⟩
      rw [List.map_cons, parsePids, bind_of_ok parsed]
      simp only [range, and_self, if_true]
      rw [bind_of_ok others]
      rfl

theorem parsePids_some {words : List CString} {pids : List Int} {control after : Control}
    (parsed : parsePids words control = .ok (some pids) after) :
    List.Forall₂ (fun word pid => strtoimax word = (pid, [])) words pids := by
  induction words generalizing pids control with
  | nil =>
      cases parsed
      exact .nil
  | cons word words ih =>
      rw [parsePids] at parsed
      obtain ⟨found, middle, first, parsed⟩ := bind_eq_ok.mp parsed
      cases found with
      | none => cases parsed
      | some cast =>
          simp only at parsed
          split at parsed
          · obtain ⟨others, last, rest, parsed⟩ := bind_eq_ok.mp parsed
            cases others with
            | none => cases parsed
            | some others =>
                cases parsed
                exact .cons (parseIntmaxT_ok first) (ih rest)
          · cases parsed

/-! ## Chunks -/

/-- The words read as these pids. -/
abbrev ReadAs (words : List CString) (pids : List Nat) : Prop :=
  List.Forall₂ (fun word pid => strtoimax word = (Int.ofNat pid, [])) words pids

/-- Words of digits have at least as many letters as their pids in decimal. -/
theorem letters_le {words : List CString} {pids : List Nat} (read : ReadAs words pids)
    (nonempty : ∀ word ∈ words, word ≠ [])
    (digits : ∀ char ∈ words.flatten, char.isDigit = true) :
    (runs (childrenText pids)).flatten.length ≤ words.flatten.length := by
  rw [runs_childrenText]
  induction read with
  | nil => exact Nat.le_refl 0
  | cons first _ ih =>
      have own := decimal_length_le (nonempty _ (.head _))
        (fun char member => digits char (by simp [member])) first
      have others := ih (fun word member => nonempty word (.tail _ member))
        fun char member => digits char (List.mem_append_right _ member)
      simp only [List.map_cons, List.flatten_cons, List.length_append]
      omega

/-- A text from which a byte before its last one is missing does not read as its pids. -/
theorem lost_byte {pids : List Nat} {before later : CString} {char : Char}
    (text : childrenText pids = before ++ char :: later) (more : later ≠ []) :
    ¬ ReadAs (runs (before ++ later)) pids := by
  intro read
  have inside : char ∈ childrenText pids := by
    rw [text]
    simp
  cases mem_childrenText inside with
  | inl space =>
      -- without this space there is a word less
      have text' : childrenText pids = (before ++ [char]) ++ later := by simpa using text
      obtain ⟨front, shape⟩ := childrenText_ends text' more
      have most := runs_length_le (before ++ front)
      have spaces := count_childrenText pids
      rw [text, shape, space] at spaces
      rw [shape, ← List.append_assoc, runs_append_singleton] at read
      have count := read.length_eq
      simp at spaces most
      omega
  | inr digit =>
      -- without this digit there is a letter less
      have letter : char ≠ ' ' := by
        rintro rfl
        exact absurd digit (by decide)
      have digits : ∀ other ∈ (runs (before ++ later)).flatten, other.isDigit = true := by
        intro other member
        rw [flatten_runs, List.mem_filter] at member
        have inside : other ∈ childrenText pids := by
          rw [text]
          cases List.mem_append.mp member.1 with
          | inl front => exact List.mem_append_left _ front
          | inr back => exact List.mem_append_right _ (.tail _ back)
        exact (mem_childrenText inside).resolve_left (of_decide_eq_true member.2)
      have nonempty : ∀ word ∈ runs (before ++ later), word ≠ [] := fun word member =>
        (words_clean commandSeparator_single _ word
          ((words_commandSeparator (before ++ later)).symm ▸ member)).1
      have least := letters_le read nonempty digits
      rw [flatten_runs, flatten_runs, text, List.filter_append, List.filter_append,
        List.filter_cons_of_pos (by simpa using letter)] at least
      simp only [List.length_append, List.length_cons] at least
      omega

/-- The results of `read` before it returns 0, for a file with the given text. -/
structure Delivered (chunks : List CString) (text : CString) : Prop where
  nonempty : ∀ chunk ∈ chunks, chunk ≠ []
  bounded : ∀ chunk ∈ chunks, chunk.length ≤ bufsiz
  content : chunks.flatten = text

/-- `get_children` on a file that can be read. -/
theorem getChildren_eq {reads : CString → Option (List (Option CString))} {pid : Int}
    {chunks : List CString} {text : CString} (delivered : Delivered chunks text)
    (opened : reads (childrenPath pid) = some (chunks.map some)) (control : Control) :
    getChildren reads pid control =
      if ∀ chunk ∈ chunks, chunk.length < bufsiz then
        (do match ← parsePids (runs ((chunks.headD []).dropLast ++ chunks.tail.flatten)) with
            | none => return .null
            | some pids => return .array pids : JobAction Children) control
      else .ok .undefined control := by
  have collected := readLoop_start delivered.nonempty delivered.bounded
  unfold getChildren
  rw [opened]
  simp only [collected]
  by_cases short : ∀ chunk ∈ chunks, chunk.length < bufsiz
  · simp only [if_pos short, splitString_tokens, words_commandSeparator]
  · simp only [if_neg short]
    rfl

/-- A file delivered by one `read` has all its words in the content. -/
theorem runs_one_chunk {chunks : List CString} {pids : List Nat}
    (delivered : Delivered chunks (childrenText pids)) (one : chunks.length ≤ 1) :
    runs ((chunks.headD []).dropLast ++ chunks.tail.flatten) = runs (childrenText pids) := by
  have content := delivered.content
  match chunks, one with
  | [], _ => rw [← content]; rfl
  | [chunk], _ =>
      have whole : childrenText pids = chunk := by simpa using content.symm
      have whole' : childrenText pids = [] ++ chunk := whole
      obtain ⟨front, shape⟩ := childrenText_ends whole' (delivered.nonempty chunk (.head _))
      rw [whole, shape, runs_append_singleton]
      simp

/-- What is missing when several `read`s deliver the file. -/
theorem not_readAs_several {chunks : List CString} {pids : List Nat}
    (delivered : Delivered chunks (childrenText pids)) (several : ¬ chunks.length ≤ 1) :
    ¬ ReadAs (runs ((chunks.headD []).dropLast ++ chunks.tail.flatten)) pids := by
  have content := delivered.content
  match chunks, several with
  | [], several => exact absurd (Nat.zero_le 1) several
  | [_], several => exact absurd (Nat.le_refl 1) several
  | first :: second :: others, _ =>
      obtain ⟨before, char, rfl⟩ :=
        List.eq_nil_or_concat first |>.resolve_left (delivered.nonempty first (.head _))
      have more : (second :: others).flatten ≠ [] := by
        simp [delivered.nonempty second (.tail _ (.head _))]
      have text : childrenText pids = before ++ char :: (second :: others).flatten := by
        rw [← content]
        simp
      simpa using lost_byte text more

/-- The children of a process, each in one word of a file of `/proc`: `get_children`
returns them exactly if one `read` delivers the whole file and leaves room in `buf`. -/
theorem getChildren_iff {reads : CString → Option (List (Option CString))} {pid : Int}
    {pids : List Nat} (fit : ∀ child ∈ pids, (child : Int) ≤ intMax) {chunks : List CString}
    (delivered : Delivered chunks (childrenText pids))
    (opened : reads (childrenPath pid) = some (chunks.map some)) (control : Control) :
    (∃ after, getChildren reads pid control = .ok (.array (pids.map Int.ofNat)) after) ↔
      chunks.length ≤ 1 ∧ ∀ chunk ∈ chunks, chunk.length < bufsiz := by
  rw [getChildren_eq delivered opened]
  by_cases short : ∀ chunk ∈ chunks, chunk.length < bufsiz
  · rw [if_pos short]
    constructor
    · rintro ⟨after, returned⟩
      refine ⟨Decidable.by_contra fun several => not_readAs_several delivered several ?_, short⟩
      obtain ⟨found, middle, parsed, returned⟩ := bind_eq_ok.mp returned
      cases found with
      | none => cases returned
      | some found =>
          cases returned
          have read := parsePids_some parsed
          rwa [List.forall₂_map_right_iff] at read
    · intro held
      obtain ⟨after, parsed⟩ := parsePids_decimals fit control
      rw [runs_one_chunk delivered held.1, runs_childrenText]
      exact ⟨after, by rw [bind_of_ok parsed]; rfl⟩
  · rw [if_neg short]
    constructor
    · rintro ⟨after, returned⟩
      cases returned
    · exact fun held => absurd held.2 short

theorem delivered_at_once : Delivered ["12 34 ".toList] (childrenText [12, 34]) where
  nonempty := by decide
  bounded := by decide
  content := by decide

theorem delivered_twice : Delivered ["1".toList, "2 34 ".toList] (childrenText [12, 34]) where
  nonempty := by decide
  bounded := by decide
  content := by decide

theorem two_children_found :
    ∃ after, getChildren (fun _ => some ["12 34 ".toList]) 7 startedJobs =
      .ok (.array [12, 34]) after := by
  have found := @getChildren_iff (fun _ => some ["12 34 ".toList]) 7 [12, 34] (by decide)
    ["12 34 ".toList] delivered_at_once rfl startedJobs
  exact found.mpr (by decide)

/-- Between two reads the first digit is lost. -/
theorem two_children_mangled :
    Delivered ["1".toList, "2 34 ".toList] (childrenText [12, 34]) ∧
    ∃ after, getChildren (fun _ => some ["1".toList, "2 34 ".toList]) 7 startedJobs =
      .ok (.array [2, 34]) after := by
  refine ⟨delivered_twice, ?_⟩
  have content : runs ((["1".toList, "2 34 ".toList].headD []).dropLast ++
      ["1".toList, "2 34 ".toList].tail.flatten) = ["2".toList, "34".toList] := by decide
  rw [getChildren_eq delivered_twice rfl, if_pos (by decide), content]
  exact ⟨startedJobs, rfl⟩

/-! ## The tree of `print_children` -/

/-- The pids that `print_children` goes through: none when it gets `NULL`. -/
def Children.pids? : Children → Option (List Int)
  | .null => some []
  | .array pids => some pids
  | .undefined => none

def ProcessTree.pid : ProcessTree → Int
  | .node pid _ => pid

def ProcessTree.children : ProcessTree → List ProcessTree
  | .node _ children => children

/-- The trees are what the calls of `get_children` find below the process. -/
inductive Found (reads : CString → Option (List (Option CString))) :
    Int → List ProcessTree → Prop where
  | intro {pid : Int} {trees : List ProcessTree} {result : Children} :
      (∀ control, getChildren reads pid control = .ok result control) →
      result.pids? = some (trees.map ProcessTree.pid) →
      (∀ tree ∈ trees, Found reads tree.pid tree.children) → Found reads pid trees

section Printing

variable (reads : CString → Option (List (Option CString))) (subjob : Subjob) (fd : Int)

/-- The line of `print_children` for a process. -/
def descendantLine (tabulation : Nat) (pid : Int) : CString :=
  "\t".toList ++ List.replicate tabulation '\t' ++ "| \t".toList ++ decimal pid ++
    "\t".toList ++ jobStatusToString subjob.lastStatus ++ "\t".toList ++ subjob.command ++
    "\n".toList

mutual

/-- A call of `print_children`, with the call of `get_children` in it. -/
inductive PrintsChildren : Int → Nat → Control → Control → Prop where
  | intro {pid : Int} {tabulation : Nat} {start middle finish : Control} {result : Children}
      {pids : List Int} : getChildren reads pid start = .ok result middle →
      result.pids? = some pids → PrintsEach pids tabulation middle finish →
      PrintsChildren pid tabulation start finish

/-- Its loop. -/
inductive PrintsEach : List Int → Nat → Control → Control → Prop where
  | nil {tabulation : Nat} {start : Control} : PrintsEach [] tabulation start start
  | cons {pid : Int} {pids : List Int} {tabulation : Nat} {start middle finish : Control} :
      PrintsChildren pid (tabulation + 1)
        (start.printed fd (descendantLine subjob tabulation pid)) middle →
      PrintsEach pids tabulation middle finish → PrintsEach (pid :: pids) tabulation start finish

end

end Printing

section Trees

variable {reads : CString → Option (List (Option CString))} {subjob : Subjob} {fd pid : Int}
  {trees : List ProcessTree} {tabulation : Nat} {start finish : Control}

theorem printsEach_iff {trees : List ProcessTree} {start : Control}
    (each : ∀ tree ∈ trees, ∀ {tabulation : Nat} {start finish : Control},
      PrintsChildren reads subjob fd tree.pid tabulation start finish ↔
        printTrees subjob tabulation fd tree.children start = .ok ⟨⟩ finish) :
    PrintsEach reads subjob fd (trees.map ProcessTree.pid) tabulation start finish ↔
      printTrees subjob tabulation fd trees start = .ok ⟨⟩ finish := by
  induction trees generalizing start with
  | nil =>
      constructor
      · rintro ⟨⟩
        rfl
      · intro ran
        cases ran
        exact .nil
  | cons tree rest ih =>
      obtain ⟨here, others⟩ := List.forall_mem_cons.mp each
      have printed : printTree subjob tabulation fd tree start =
          printTrees subjob (tabulation + 1) fd tree.children
            (start.printed fd (descendantLine subjob tabulation tree.pid)) := by
        cases tree
        rfl
      constructor
      · rintro (_ | ⟨first, later⟩)
        rw [printTrees]
        exact (bind_of_ok (printed.trans (here.mp first))).trans ((ih others).mp later)
      · intro ran
        rw [printTrees] at ran
        obtain ⟨_, middle, first, later⟩ := bind_eq_ok.mp ran
        exact .cons (here.mpr (printed.symm.trans first)) ((ih others).mpr later)

/-- A tree is printed as `print_children` prints it when it reads the files of `/proc`. -/
theorem Found.prints_iff (found : Found reads pid trees) :
    PrintsChildren reads subjob fd pid tabulation start finish ↔
      printTrees subjob tabulation fd trees start = .ok ⟨⟩ finish := by
  induction found generalizing tabulation start finish with
  | intro reads pids _ ih =>
      rw [← printsEach_iff fun tree member => ih tree member]
      constructor
      · rintro ⟨reads', pids', each⟩
        rw [reads] at reads'
        cases reads'
        cases pids.symm.trans pids'
        exact each
      · exact fun each => .intro (reads _) pids each

/-- `print_children` on a process whose descendants are those of the environment. -/
theorem printChildren_iff {environment : Environment}
    (found : Found reads pid (environment.children start.calls pid)) :
    printChildren environment subjob pid tabulation fd start = .ok ⟨⟩ finish ↔
      PrintsChildren reads subjob fd pid tabulation { start with calls := start.calls + 1 }
        finish := by
  rw [found.prints_iff]
  rfl

end Trees

end Jsh
