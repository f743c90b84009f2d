import Jsh.ReadLine

/-!
# Background flags

Which commands of a line run in the background. The loop of `parse_read_line` rebuilds
this from the one number `split_string_keep_trace` has counted, while the line says it
by the flag behind each segment.
-/

set_option autoImplicit false

namespace Jsh

/-! ## The number of flags -/

theorem getLast?_of_skipSeparators_nil {separator : Separator} {char : Char}
    (single : separator.text = [char]) {string : CString} (nonempty : string ≠ [])
    (blank : skipSeparators separator string = []) : string.getLast? = some char := by
  obtain ⟨skipped, shape, _⟩ := skipSeparators_skipped separator string
  rw [blank, List.append_nil, single] at shape
  cases skipped with
  | zero => exact absurd shape nonempty
  | succ skipped =>
      rw [shape, List.replicate_succ', List.flatten_append]
      simp

/-- Each word is counted that a separator follows: all of them, the last one only when
the string ends with a separator. -/
theorem readWordsKeepTrace_snd {char : Char} (iterator : StringIterator)
    (single : iterator.separator.text = [char]) (nonempty : iterator.string ≠ []) :
    (readWordsKeepTrace iterator).2 + 1 =
      (readWords iterator).length + (decide (iterator.string.getLast? = some char)).toNat := by
  induction size : iterator.string.length using Nat.strongRecOn generalizing iterator with
  | ind size ih =>
    rw [readWordsKeepTrace, readWords]
    by_cases more : iterator.hasNextWord.1 = true
    · have shorter := size ▸ nextWord_string_length_lt more
      have rest : skipSeparators iterator.separator iterator.string ≠ [] := hasNextWord_iff.mp more
      obtain ⟨skipped, shape, _⟩ := skipSeparators_skipped iterator.separator iterator.string
      have first := words_clean single iterator.string
      rw [words_eq, if_neg rest] at first
      have next := nextWord_eq rest
      set string := skipSeparators iterator.separator iterator.string with stringShape
      set tail := string.drop (currentWordSize iterator.separator string) with tailShape
      have same : iterator.nextWord.2.string = tail := by rw [next]
      have separatorSame : iterator.nextWord.2.separator = iterator.separator := by rw [next]
      simp only [more, if_true, List.length_cons, same]
      cases drop_currentWordSize iterator.separator string with
      | inl last =>
          have whole : string.take (currentWordSize iterator.separator string) = string := by
            have split := List.take_append_drop (currentWordSize iterator.separator string) string
            rwa [last, List.append_nil] at split
          have free := (first _ (.head _)).2
          rw [whole] at free
          have unfinished : iterator.string.getLast? ≠ some char := by
            rw [shape, List.getLast?_append_of_ne_nil _ rest]
            exact fun found => free (List.mem_of_getLast? found)
          have ended : iterator.nextWord.2.hasNextWord.1 = false := by
            refine Bool.eq_false_iff.mpr fun another => hasNextWord_iff.mp another ?_
            rw [same, tailShape, last]
            exact skipSeparators_of_not_startsWith (startsWith_nil _)
          rw [readWordsKeepTrace, readWords]
          simp [ended, unfinished, tailShape, last, startsWith_nil]
      | inr present =>
          have left : tail ≠ [] := by
            intro empty
            rw [← tailShape, empty, startsWith_nil] at present
            cases present
          have recursive := ih _ shorter iterator.nextWord.2 (by rw [separatorSame, single])
            (by rw [same]; exact left) rfl
          have suffix : iterator.string.getLast? = tail.getLast? := by
            rw [shape, List.getLast?_append_of_ne_nil _ rest,
              ← List.take_append_drop (currentWordSize iterator.separator string) string,
              List.getLast?_append_of_ne_nil _ (by rw [← tailShape]; exact left)]
          rw [same] at recursive
          rw [← tailShape] at present
          rw [suffix, present]
          simp only [Bool.toNat_true]
          omega
    · have blank : skipSeparators iterator.separator iterator.string = [] := by
        simpa [hasNextWord_iff] using more
      simp [more, getLast?_of_skipSeparators_nil single nonempty blank]

/-- The value of `last` for a string with a word. -/
theorem splitStringKeepTrace_last {separator : Separator} {char : Char}
    (single : separator.text = [char]) {string : CString} (nonempty : words separator string ≠ []) :
    (splitStringKeepTrace string separator).last =
      if string.getLast? = some char then ((words separator string).length : Int) - 1
      else (words separator string).length - 2 := by
  have counted := readWordsKeepTrace_snd (newStringIterator string separator) single
    (by rintro (rfl : string = []); exact nonempty (words_nil separator))
  have positive : getNumberOfWordsLeft (newStringIterator string separator) ≠ 0 := by
    rw [getNumberOfWordsLeft, newStringIterator, countWords_eq_length_words]
    exact List.length_pos_iff.mpr nonempty |>.ne'
  have string' : (newStringIterator string separator).string = string := rfl
  rw [string', ← words] at counted
  simp only [splitStringKeepTrace, positive, if_false]
  by_cases ends : string.getLast? = some char
  · simp only [ends, decide_true, Bool.toNat_true, if_true] at counted ⊢
    omega
  · simp only [ends, decide_false, Bool.toNat_false, if_false] at counted ⊢
    omega

/-! ## The flag behind a segment -/

private theorem interleave_cons (separator token : CString) (tokens : List CString) (gap : Nat)
    (gaps : List Nat) :
    interleave separator (token :: tokens) (gap :: gaps) =
      token ++ (List.replicate gap separator).flatten ++ interleave separator tokens gaps := rfl

private theorem interleave_getLast? {char : Char} {tokens : List CString} {gaps : List Nat}
    {last : Nat} (clean : ∀ token ∈ tokens, token ≠ [] ∧ char ∉ token)
    (counted : gaps.length = tokens.length) (atEnd : gaps.getLast? = some last) :
    (interleave [char] tokens gaps).getLast? = some char ↔ 0 < last := by
  induction tokens generalizing gaps with
  | nil =>
      rw [List.length_eq_zero_iff.mp counted] at atEnd
      cases atEnd
  | cons token tokens ih =>
      obtain ⟨nonempty, free⟩ := clean token (.head _)
      cases gaps with
      | nil => cases counted
      | cons gap gaps =>
          rw [interleave_cons]
          cases tokens with
          | nil =>
              obtain rfl : gaps = [] := by simpa using counted
              obtain rfl : gap = last := by simpa using atEnd
              cases gap with
              | zero =>
                  have unfinished : token.getLast? ≠ some char :=
                    fun found => free (List.mem_of_getLast? found)
                  simpa [interleave] using unfinished
              | succ gap => simp [interleave, List.replicate_succ', List.flatten_append]
          | cons next tokens =>
              cases gaps with
              | nil => cases counted
              | cons nextGap gaps =>
                  have shorter : (nextGap :: gaps).length = (next :: tokens).length := by
                    simpa using counted
                  have following := ih (fun token member => clean token (.tail _ member)) shorter
                    (by simpa using atEnd)
                  have more : interleave [char] (next :: tokens) (nextGap :: gaps) ≠ [] := by
                    have nextNonempty := (clean next (by simp)).1
                    simp [interleave_cons, nextNonempty]
                  rw [List.getLast?_append_of_ne_nil _ more]
                  exact following

/-- A line that does not start with a flag is its segments, each with the flags behind
it. The last segment is followed by one when the line ends with one. -/
theorem segments_interleaved {line : CString}
    (unflagged : startsWith line backgroundFlag.text = false) :
    ∃ gaps, gaps.length = (segments line).length ∧
      line = interleave backgroundFlag.text (segments line) gaps ∧
      ∀ index gap, gaps[index]? = some gap →
        (0 < gap ↔ index + 1 < (segments line).length ∨ line.getLast? = some '&') := by
  have all : words backgroundFlag line = segments line := words_eq_splitOn rfl line
  obtain ⟨leading, gaps, counted, separated, split, _⟩ := words_interleaved backgroundFlag line
  have clean := words_clean backgroundFlag_single line
  rw [all] at counted split clean
  cases leading with
  | succ leading =>
      have present : startsWith line backgroundFlag.text = true := by
        rw [startsWith_iff, split, List.replicate_succ, List.flatten_cons, List.append_assoc]
        exact List.prefix_append _ _
      rw [unflagged] at present
      cases present
  | zero =>
      refine ⟨gaps, counted, split, fun index gap found => ?_⟩
      have bounded := (List.getElem?_eq_some_iff.mp found).1
      by_cases early : index + 1 < (segments line).length
      · have within : index < gaps.dropLast.length := by
          rw [List.length_dropLast]
          omega
        have member : gap ∈ gaps.dropLast := by
          rw [← (List.getElem?_eq_some_iff.mp found).2, ← List.getElem_dropLast within]
          exact List.getElem_mem within
        have positive := separated gap member
        exact ⟨fun _ => .inl early, fun _ => positive⟩
      · have atEnd : gaps.getLast? = some gap := by
          rw [List.getLast?_eq_getElem?, ← found]
          congr 1
          omega
        have ends := interleave_getLast? clean counted atEnd
        rw [List.replicate_zero, List.flatten_nil, List.nil_append] at split
        have whole : interleave ['&'] (segments line) gaps = line := split.symm
        rw [whole] at ends
        rw [← ends]
        simp [early]

/-! ## The commands of a line -/

theorem parseCommand_background {outcomes : FileOutcomes} {segment : CString}
    {parser : ParserState} {command : Command}
    (accepted : (parseCommand outcomes segment parser).1 = some command) :
    command.background = false := by
  unfold parseCommand at accepted
  split at accepted
  · cases accepted
  · simp only at accepted
    split at accepted
    · split at accepted <;> cases accepted
    · split at accepted
      · cases accepted
      · cases accepted
        rfl

/-- What the loop stores for the rest of the segments while it does not abort. -/
def parsedCommands (outcomes : FileOutcomes) (last : Int) :
    Nat → ParserState → List CString → List (Option Command)
  | _, _, [] => []
  | index, parser, segment :: segments =>
      ((parseCommand outcomes segment parser).1.map fun command =>
          { command with background := decide ((index : Int) ≤ last) }) ::
        parsedCommands outcomes last (index + 1) (parseCommand outcomes segment parser).2 segments

section Loop

variable {outcomes : FileOutcomes} {last : Int}

theorem parsedCommands_length (index : Nat) (parser : ParserState) (segments : List CString) :
    (parsedCommands outcomes last index parser segments).length = segments.length := by
  induction segments generalizing index parser with
  | nil => rfl
  | cons segment segments ih => simp [parsedCommands, ih]

theorem parsedCommands_getElem? (start index : Nat) (parser : ParserState)
    (segments : List CString) :
    (parsedCommands outcomes last start parser segments)[index]? =
      segments[index]?.map fun segment =>
        (parseCommand outcomes segment
          (parsedSegments outcomes parser (segments.take index))).1.map fun command =>
            { command with background := decide (((start + index : Nat) : Int) ≤ last) } := by
  induction segments generalizing start index parser with
  | nil => rfl
  | cons segment segments ih =>
      cases index with
      | zero => rfl
      | succ index =>
          simp only [parsedCommands, List.getElem?_cons_succ, ih, List.take_succ_cons,
            parsedSegments, List.foldl_cons]
          rw [Nat.add_assoc, Nat.add_comm 1 index]

theorem foldl_parseSegment_commands {total : Nat} (segments : List CString) {loop : LineLoop}
    (going : loop.abort = false) (counted : loop.commands.length + segments.length = total)
    (finished : (segments.foldl (parseSegment outcomes total last) loop).abort = false) :
    (segments.foldl (parseSegment outcomes total last) loop).commands =
      loop.commands ++ parsedCommands outcomes last loop.commands.length loop.parser segments := by
  induction segments generalizing loop with
  | nil => simp [parsedCommands]
  | cons segment segments ih =>
      rw [List.length_cons] at counted
      rw [List.foldl_cons] at finished ⊢
      cases parsed : parseCommand outcomes segment loop.parser with
      | mk result parser =>
          cases result with
          | none =>
              cases segments with
              | nil =>
                  have atLast : loop.commands.length = total - 1 := by
                    rw [List.length_nil] at counted
                    omega
                  simp [parseSegment, going, parsed, atLast, parsedCommands]
              | cons next others =>
                  have notLast : loop.commands.length ≠ total - 1 := by
                    rw [List.length_cons] at counted
                    omega
                  have aborted := foldl_parseSegment_abort outcomes total last (next :: others)
                    (show (parseSegment outcomes total last loop segment).abort = true by
                      simp [parseSegment, going, parsed, notLast])
                  rw [aborted] at finished
                  cases finished
          | some command =>
              have foreground : command.background = false :=
                parseCommand_background (by rw [parsed])
              have next : parseSegment outcomes total last loop segment =
                  { loop with
                    parser
                    commands := loop.commands ++ [some { command with
                      background := decide ((loop.commands.length : Int) ≤ last) }] } := by
                by_cases flagged : (loop.commands.length : Int) ≤ last
                · simp [parseSegment, going, parsed, flagged]
                · simp [parseSegment, going, parsed, flagged, ← foreground]
              have shorter : (loop.commands ++ [some { command with
                  background := decide ((loop.commands.length : Int) ≤ last) }]).length +
                    segments.length = total := by
                simp only [List.length_append, List.length_singleton]
                omega
              rw [next] at finished ⊢
              refine (ih ?_ shorter finished).trans ?_
              · exact going
              · simp [parsedCommands, parsed]

end Loop

/-- What `parse_read_line` returns, when it returns commands. -/
theorem parseReadLine_commands {outcomes : FileOutcomes} {line : CString} {parser : ParserState}
    {lastExitCode : Int} {commands : List (Option Command)}
    (returned : (parseReadLine outcomes line parser lastExitCode).commands = some commands) :
    startsWith line backgroundFlag.text = false ∧ segments line ≠ [] ∧
      (∀ index, index + 1 < (segments line).length →
        ¬ Rejected outcomes parser (segments line) index) ∧
      ∃ count, commands = (parsedCommands outcomes (splitStringKeepTrace line backgroundFlag).last 0
          parser (segments line)).take count ∧
        (Rejected outcomes parser (segments line) ((segments line).length - 1) →
          count = (segments line).length - 1) ∧
        (¬ Rejected outcomes parser (segments line) ((segments line).length - 1) →
          count = (segments line).length) := by
  have accepted : (parseReadLine outcomes line parser lastExitCode).commands ≠ none := by
    rw [returned]
    exact Option.some_ne_none _
  rw [Ne, parseReadLine_none_iff, not_or, not_or, not_or] at accepted
  obtain ⟨unflagged, nonempty, early, _⟩ := accepted
  have early : ∀ index, index + 1 < (segments line).length →
      ¬ Rejected outcomes parser (segments line) index :=
    fun index bounded rejected => early ⟨index, bounded, rejected⟩
  refine ⟨Bool.eq_false_iff.mpr unflagged, nonempty, early, ?_⟩
  obtain ⟨tokens, size⟩ := splitStringKeepTrace_backgroundFlag line
  set last := (splitStringKeepTrace line backgroundFlag).last with lastShape
  have positive := List.length_pos_iff.mpr nonempty
  obtain ⟨aborts, trims⟩ := foldl_parseSegment outcomes (segments line).length last (segments line)
    (show LineLoop.abort
      { parser, lastExitCode, commands := [], abort := false, trimLast := false } = false from rfl)
    (Nat.zero_add _)
  have clear : ((segments line).foldl (parseSegment outcomes (segments line).length last)
      { parser, lastExitCode, commands := [], abort := false, trimLast := false }).abort =
        false := by
    refine Bool.eq_false_iff.mpr fun aborted => ?_
    obtain ⟨index, bounded, rejected⟩ := aborts.mp aborted
    exact early index bounded rejected
  have stored := foldl_parseSegment_commands (segments line)
    (show LineLoop.abort
      { parser, lastExitCode, commands := [], abort := false, trimLast := false } = false from rfl)
    (Nat.zero_add _) clear
  have trim := trims clear
  unfold parseReadLine at returned
  simp only [unflagged, Bool.false_eq_true, if_false, tokens, size, clear, positive.ne', stored,
    ← lastShape, false_or] at returned trim
  by_cases rejected : Rejected outcomes parser (segments line) ((segments line).length - 1)
  · have trimmed := trim.mpr ⟨_, by omega, rejected⟩
    simp only [trimmed, not_true_eq_false, if_false] at returned
    split at returned
    · cases returned
    · refine ⟨(segments line).length - 1, ?_, fun _ => rfl, fun kept => absurd rejected kept⟩
      exact (Option.some.inj returned).symm
  · have kept : ((segments line).foldl (parseSegment outcomes (segments line).length last)
        { parser, lastExitCode, commands := [], abort := false, trimLast := false }).trimLast =
          false := by
      refine Bool.eq_false_iff.mpr fun trimmed => ?_
      obtain ⟨index, atEnd, bad⟩ := trim.mp trimmed
      obtain rfl : index = (segments line).length - 1 := by omega
      exact rejected bad
    simp only [kept, Bool.false_eq_true, not_false_eq_true, if_true] at returned
    refine ⟨(segments line).length, ?_, fun bad => absurd bad rejected, fun _ => rfl⟩
    rw [List.take_of_length_le (by rw [parsedCommands_length])]
    exact (Option.some.inj returned).symm

/-- The commands of a line are those of its segments, without the last one when it is
rejected, and a command is put in the background exactly when a flag stands behind its
segment. -/
theorem background_iff_flag {outcomes : FileOutcomes} {line : CString} {parser : ParserState}
    {lastExitCode : Int} {commands : List (Option Command)}
    (returned : (parseReadLine outcomes line parser lastExitCode).commands = some commands) :
    ∃ gaps, gaps.length = (segments line).length ∧
      line = interleave backgroundFlag.text (segments line) gaps ∧
      (∀ segment ∈ segments line, segment ≠ [] ∧ '&' ∉ segment) ∧
      (Rejected outcomes parser (segments line) ((segments line).length - 1) →
        commands.length + 1 = (segments line).length) ∧
      (¬ Rejected outcomes parser (segments line) ((segments line).length - 1) →
        commands.length = (segments line).length) ∧
      (∀ index < commands.length, ∃ segment gap command, (segments line)[index]? = some segment ∧
        gaps[index]? = some gap ∧
        (parseCommand outcomes segment
          (parsedSegments outcomes parser ((segments line).take index))).1 = some command ∧
        commands[index]? = some (some { command with background := decide (0 < gap) })) ∧
      (splitStringKeepTrace line backgroundFlag).last =
        if line.getLast? = some '&' then ((segments line).length : Int) - 1
        else (segments line).length - 2 := by
  obtain ⟨unflagged, nonempty, early, count, stored, trimmed, whole⟩ :=
    parseReadLine_commands returned
  obtain ⟨gaps, counted, split, flags⟩ := segments_interleaved unflagged
  have all : words backgroundFlag line = segments line := words_eq_splitOn rfl line
  have clean := words_clean backgroundFlag_single line
  have last := splitStringKeepTrace_last backgroundFlag_single
    (by rw [all]; exact nonempty)
  rw [all] at clean last
  have positive := List.length_pos_iff.mpr nonempty
  have length : commands.length = min count (segments line).length := by
    rw [stored, List.length_take, parsedCommands_length]
  refine ⟨gaps, counted, split, clean, fun rejected => ?_, fun kept => ?_, fun index bounded => ?_,
    last⟩
  · rw [length, trimmed rejected]
    omega
  · rw [length, whole kept, Nat.min_self]
  · have inside : index < (segments line).length := by omega
    have accepted : ¬ Rejected outcomes parser (segments line) index := by
      by_cases atEnd : index + 1 < (segments line).length
      · exact early index atEnd
      · obtain rfl : index = (segments line).length - 1 := by omega
        intro rejected
        have shorter := trimmed rejected
        omega
    have segmentAt := List.getElem?_eq_getElem inside
    have gapAt := List.getElem?_eq_getElem (counted ▸ inside)
    set segment := (segments line)[index]
    set gap := gaps[index]
    cases parsed : (parseCommand outcomes segment
        (parsedSegments outcomes parser ((segments line).take index))).1 with
    | none => exact absurd ⟨segment, segmentAt, parsed⟩ accepted
    | some command =>
        have same : (index : Int) ≤ (splitStringKeepTrace line backgroundFlag).last ↔ 0 < gap := by
          rw [flags index gap gapAt, last]
          by_cases ends : line.getLast? = some '&'
          · rw [if_pos ends]
            exact ⟨fun _ => .inr ends, fun _ => by omega⟩
          · rw [if_neg ends, or_iff_left ends]
            omega
        refine ⟨segment, gap, command, segmentAt, gapAt, parsed, ?_⟩
        rw [stored, List.getElem?_take_of_lt (by omega), parsedCommands_getElem?, segmentAt]
        simp [parsed, same]

theorem second_of_two_commands :
    ∃ commands, (parseReadLine .noFile "a & b".toList startedShell 0).commands = some commands ∧
      ∃ segment, ∃ command : Command, (segments "a & b".toList)[1]? = some segment ∧
        commands[1]? = some (some { command with background := false }) := by
  have returned : (parseReadLine .noFile "a & b".toList startedShell 0).commands =
      some ((parseReadLine .noFile "a & b".toList startedShell 0).commands.getD []) := by
    decide +kernel
  refine ⟨_, returned, ?_⟩
  obtain ⟨gaps, _, _, _, _, _, stored, _⟩ := background_iff_flag returned
  obtain ⟨segment, gap, command, found, _, _, atIndex⟩ := stored 1 (by decide +kernel)
  have foreground : (((parseReadLine .noFile "a & b".toList startedShell 0).commands.getD []).getD 1
      none).map (·.background) = some false := by decide +kernel
  rw [List.getD_eq_getElem?_getD, atIndex] at foreground
  have unflagged : decide (0 < gap) = false := by simpa using foreground
  rw [unflagged] at atIndex
  exact ⟨segment, command, found, atIndex⟩

end Jsh
