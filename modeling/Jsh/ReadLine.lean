import Jsh.Ownership

/-!
# Parsing of a line

`parse_read_line` of `command.c` splits a line at its background flags and hands
the segments to `parse_command` one after another, up to the first one that is
rejected. A rejected last segment does not reject the line.
-/

set_option autoImplicit false

namespace Jsh

/-- `BACKGROUND_FLAG` -/
def backgroundFlag : Separator := { text := ['&'], nonempty := by decide }

theorem backgroundFlag_single : backgroundFlag.text = ['&'] := rfl

/-- The variables of the loop of `parse_read_line`, with the globals it writes. The
array of commands is filled up to the index of the next segment. -/
structure LineLoop where
  parser : ParserState
  lastExitCode : Int
  commands : List (Option Command)
  abort : Bool
  trimLast : Bool
  deriving DecidableEq, Repr

/-- The body of the loop. -/
def parseSegment (outcomes : FileOutcomes) (totalCommands : Nat) (lastBackgroundCommandIndex : Int)
    (loop : LineLoop) (segment : CString) : LineLoop :=
  let index := loop.commands.length
  if loop.abort then { loop with commands := loop.commands ++ [none] }
  else
    match parseCommand outcomes segment loop.parser with
    | (none, parser) =>
        let loop := { loop with parser, lastExitCode := 1, commands := loop.commands ++ [none] }
        if index = totalCommands - 1 then { loop with trimLast := true }
        else { loop with abort := true }
    | (some command, parser) =>
        let command :=
          if (index : Int) ≤ lastBackgroundCommandIndex then { command with background := true }
          else command
        { loop with parser, commands := loop.commands ++ [some command] }

/-- What `parse_read_line` returns, with the globals it has written. The number of
commands it stores is the length of the array. -/
structure ReadLine where
  commands : Option (List (Option Command))
  parser : ParserState
  lastExitCode : Int
  deriving DecidableEq, Repr

/-- `parse_read_line`. -/
def parseReadLine (outcomes : FileOutcomes) (commandString : CString) (parser : ParserState)
    (lastExitCode : Int) : ReadLine :=
  if startsWith commandString backgroundFlag.text then { commands := none, parser, lastExitCode }
  else
    let split := splitStringKeepTrace commandString backgroundFlag
    if split.size = 0 then { commands := none, parser, lastExitCode }
    else
      let loop := split.tokens.foldl (parseSegment outcomes split.size split.last)
        { parser, lastExitCode, commands := [], abort := false, trimLast := false }
      let commands :=
        if loop.abort then none
        else if ¬ loop.trimLast then some loop.commands
        else if split.size = 1 then none
        else some (loop.commands.take (split.size - 1))
      { commands, parser := loop.parser, lastExitCode := loop.lastExitCode }

/-- The segments of a line: its maximal runs of bytes other than `&`. -/
def segments (line : CString) : List CString := (line.splitOn '&').filter (· ≠ [])

/-- The tokens a line is split into. -/
theorem splitStringKeepTrace_backgroundFlag (line : CString) :
    (splitStringKeepTrace line backgroundFlag).tokens = segments line ∧
      (splitStringKeepTrace line backgroundFlag).size = (segments line).length := by
  have all : words backgroundFlag line = segments line := words_eq_splitOn rfl line
  rw [← all]
  exact splitStringKeepTrace_tokens line backgroundFlag

/-! ## Rejected segments -/

/-- The state after the first segments have been handed to `parse_command`. -/
def parsedSegments (outcomes : FileOutcomes) (parser : ParserState) (segments : List CString) :
    ParserState :=
  segments.foldl (fun parser segment => (parseCommand outcomes segment parser).2) parser

/-- `parse_command` rejects the segment at `index` after the ones before it. -/
def Rejected (outcomes : FileOutcomes) (parser : ParserState) (segments : List CString)
    (index : Nat) : Prop :=
  ∃ segment, segments[index]? = some segment ∧
    (parseCommand outcomes segment (parsedSegments outcomes parser (segments.take index))).1 = none

/-- The first rejected segment is the one at `index`. -/
structure FirstRejected (outcomes : FileOutcomes) (parser : ParserState) (segments : List CString)
    (index : Nat) : Prop where
  rejected : Rejected outcomes parser segments index
  accepted : ∀ earlier < index, ¬ Rejected outcomes parser segments earlier

/-- While the first rejected segment is parsed, the descriptors of a freed call are read. -/
def SegmentsReadFreed (outcomes : FileOutcomes) (parser : ParserState) (segments : List CString)
    (own : Bool) : Prop :=
  ∃ index segment, FirstRejected outcomes parser segments index ∧
    segments[index]? = some segment ∧
    ReadsFreedCall outcomes segment (parsedSegments outcomes parser (segments.take index)) own

/-- While a line is parsed, the descriptors of a freed call are read; `own` tells whether the
call has redirections. -/
def LineReadsFreed (outcomes : FileOutcomes) (line : CString) (parser : ParserState)
    (own : Bool) : Prop :=
  startsWith line backgroundFlag.text = false ∧
    SegmentsReadFreed outcomes parser (segments line) own

/-- No freed call is read while the line is parsed. -/
def LineIntact (outcomes : FileOutcomes) (line : CString) (parser : ParserState) : Prop :=
  ∀ own, ¬ LineReadsFreed outcomes line parser own

theorem lineIntact_of_unsubstituted {outcomes : FileOutcomes} {line : CString}
    {parser : ParserState}
    (plain : ∀ segment ∈ segments line, commandSubstitutionStart ∉ runs segment) :
    LineIntact outcomes line parser := by
  rintro own ⟨_, index, segment, _, found, reads⟩
  exact plain segment (List.mem_of_getElem? found) reads.substitution_mem

section Loop

variable {outcomes : FileOutcomes}

theorem rejected_zero {parser : ParserState} {segment : CString} {rest : List CString} :
    Rejected outcomes parser (segment :: rest) 0 ↔
      (parseCommand outcomes segment parser).1 = none := by
  simp [Rejected, parsedSegments]

theorem rejected_succ {parser : ParserState} {segment : CString} {rest : List CString}
    {index : Nat} :
    Rejected outcomes parser (segment :: rest) (index + 1) ↔
      Rejected outcomes (parseCommand outcomes segment parser).2 rest index := by
  simp [Rejected, parsedSegments]

theorem segmentsReadFreed_of_rejected {parser : ParserState} {segment : CString}
    {rest : List CString} {own : Bool} (refused : (parseCommand outcomes segment parser).1 = none)
    (reads : ReadsFreedCall outcomes segment parser own) :
    SegmentsReadFreed outcomes parser (segment :: rest) own :=
  ⟨0, segment, ⟨rejected_zero.mpr refused, fun _ early => absurd early (Nat.not_lt_zero _)⟩, rfl,
    reads⟩

theorem segmentsReadFreed_of_accepted {parser parser' : ParserState} {segment : CString}
    {rest : List CString} {own : Bool} {command : Command}
    (parsed : parseCommand outcomes segment parser = (some command, parser'))
    (reads : SegmentsReadFreed outcomes parser' rest own) :
    SegmentsReadFreed outcomes parser (segment :: rest) own := by
  obtain ⟨index, other, ⟨rejected, accepted⟩, found, freed⟩ := reads
  have next : (parseCommand outcomes segment parser).2 = parser' := by rw [parsed]
  refine ⟨index + 1, other, ⟨rejected_succ.mpr (next ▸ rejected), fun earlier early bad => ?_⟩,
    found, ?_⟩
  · cases earlier with
    | zero =>
        rw [rejected_zero, parsed] at bad
        cases bad
    | succ earlier => exact accepted earlier (by omega) (next ▸ rejected_succ.mp bad)
  · rw [List.take_succ_cons, parsedSegments, List.foldl_cons, next]
    exact freed

theorem foldl_parseSegment_abort (outcomes : FileOutcomes) (total : Nat) (last : Int)
    (segments : List CString) {loop : LineLoop}
    (abort : loop.abort = true) :
    (segments.foldl (parseSegment outcomes total last) loop).abort = true := by
  induction segments generalizing loop with
  | nil => exact abort
  | cons segment rest ih => exact ih (by simp [parseSegment, abort])

/-- The flags after the loop has gone through the rest of the segments. -/
theorem foldl_parseSegment (outcomes : FileOutcomes) (total : Nat) (last : Int)
    (segments : List CString) {loop : LineLoop} (going : loop.abort = false)
    (counted : loop.commands.length + segments.length = total) :
    let final := segments.foldl (parseSegment outcomes total last) loop
    (final.abort = true ↔
        ∃ index, index + 1 < segments.length ∧ Rejected outcomes loop.parser segments index) ∧
      (final.abort = false → (final.trimLast = true ↔ loop.trimLast = true ∨
        ∃ index, index + 1 = segments.length ∧ Rejected outcomes loop.parser segments index)) := by
  induction segments generalizing loop with
  | nil => simp [going]
  | cons segment rest ih =>
      rw [List.length_cons] at counted
      simp only [List.foldl_cons, List.length_cons]
      cases parsed : parseCommand outcomes segment loop.parser with
      | mk result parser =>
          cases result with
          | none =>
              have rejected : Rejected outcomes loop.parser (segment :: rest) 0 :=
                rejected_zero.mpr (by rw [parsed])
              cases rest with
              | nil =>
                  have atLast : loop.commands.length = total - 1 := by
                    simp only [List.length_nil] at counted
                    omega
                  simp [parseSegment, going, parsed, atLast, rejected]
              | cons next others =>
                  have notLast : loop.commands.length ≠ total - 1 := by
                    simp only [List.length_cons] at counted
                    omega
                  have aborted := foldl_parseSegment_abort outcomes total last (next :: others)
                    (show (parseSegment outcomes total last loop segment).abort = true by
                      simp [parseSegment, going, parsed, notLast])
                  refine ⟨⟨fun _ => ⟨0, by simp, rejected⟩, fun _ => aborted⟩, fun clear => ?_⟩
                  rw [aborted] at clear
                  cases clear
          | some command =>
              have accepted : ¬ Rejected outcomes loop.parser (segment :: rest) 0 := by
                rw [rejected_zero, parsed]
                simp
              have next : (parseSegment outcomes total last loop segment).parser = parser ∧
                  (parseSegment outcomes total last loop segment).abort = false ∧
                  (parseSegment outcomes total last loop segment).trimLast = loop.trimLast ∧
                  (parseSegment outcomes total last loop segment).commands.length =
                    loop.commands.length + 1 := by
                simp [parseSegment, going, parsed]
              obtain ⟨sameParser, sameAbort, sameTrim, longer⟩ := next
              have following := ih sameAbort (by omega)
              have shifted : ∀ (bound : Nat → Prop),
                  (∃ index, bound (index + 1) ∧ Rejected outcomes parser rest index) ↔
                    ∃ index, bound index ∧ Rejected outcomes loop.parser (segment :: rest) index := by
                intro bound
                constructor
                · rintro ⟨index, bounded, rejected⟩
                  exact ⟨index + 1, bounded, rejected_succ.mpr (by rw [parsed]; exact rejected)⟩
                · rintro ⟨index, bounded, rejected⟩
                  cases index with
                  | zero => exact absurd rejected accepted
                  | succ index =>
                      have later := rejected_succ.mp rejected
                      rw [parsed] at later
                      exact ⟨index, bounded, later⟩
              rw [sameParser, sameTrim] at following
              have early := shifted (fun index => index + 1 < rest.length + 1)
              have final := shifted (fun index => index + 1 = rest.length + 1)
              simp only [Nat.add_lt_add_iff_right, Nat.add_right_cancel_iff] at early final ⊢
              rw [← early, ← final]
              exact following

end Loop

/-- When `parse_read_line` returns `NULL`. -/
theorem parseReadLine_none_iff {outcomes : FileOutcomes} {line : CString} {parser : ParserState}
    {lastExitCode : Int} :
    (parseReadLine outcomes line parser lastExitCode).commands = none ↔
      startsWith line backgroundFlag.text = true ∨ segments line = [] ∨
        (∃ index, index + 1 < (segments line).length ∧
          Rejected outcomes parser (segments line) index) ∨
        (segments line).length = 1 ∧ Rejected outcomes parser (segments line) 0 := by
  obtain ⟨tokens, size⟩ := splitStringKeepTrace_backgroundFlag line
  unfold parseReadLine
  by_cases flagged : startsWith line backgroundFlag.text = true
  · simp [flagged]
  · simp only [flagged, Bool.false_eq_true, if_false, false_or, tokens, size]
    by_cases empty : segments line = []
    · simp [empty]
    · have positive : (segments line).length ≠ 0 := by simpa using empty
      obtain ⟨aborts, trims⟩ := foldl_parseSegment outcomes (segments line).length
        (splitStringKeepTrace line backgroundFlag).last (segments line)
        (show LineLoop.abort
          { parser, lastExitCode, commands := [], abort := false, trimLast := false } = false from
            rfl) (Nat.zero_add _)
      set final := (segments line).foldl (parseSegment outcomes (segments line).length
        (splitStringKeepTrace line backgroundFlag).last)
        { parser, lastExitCode, commands := [], abort := false, trimLast := false }
      simp only [positive, empty, if_false, false_or]
      cases aborted : final.abort with
      | true => simp [aborts.mp aborted]
      | false =>
          have early : ¬ ∃ index, index + 1 < (segments line).length ∧
              Rejected outcomes parser (segments line) index := by
            rw [← aborts, aborted]
            decide
          simp only [early, false_or, Bool.false_eq_true, if_false]
          have trim := trims aborted
          simp only [Bool.false_eq_true, false_or] at trim
          cases trimmed : final.trimLast with
          | false =>
              simp only [Bool.false_eq_true, not_false_eq_true, if_true, reduceCtorEq, false_iff,
                not_and]
              intro one rejected
              rw [trim.mpr ⟨0, by omega, rejected⟩] at trimmed
              cases trimmed
          | true =>
              obtain ⟨index, atEnd, rejected⟩ := trim.mp trimmed
              by_cases one : (segments line).length = 1
              · obtain rfl : index = 0 := by omega
                simp [one, rejected]
              · simp [one]

theorem foldl_parseSegment_lastExitCode {outcomes : FileOutcomes} {total : Nat} {last : Int}
    {segments : List CString} {loop : LineLoop} (going : loop.abort = false)
    (accepted : ∀ index, ¬ Rejected outcomes loop.parser segments index) :
    (segments.foldl (parseSegment outcomes total last) loop).lastExitCode = loop.lastExitCode := by
  induction segments generalizing loop with
  | nil => rfl
  | cons segment rest ih =>
      have first := accepted 0
      rw [rejected_zero] at first
      cases parsed : parseCommand outcomes segment loop.parser with
      | mk result parser =>
          rw [parsed] at first
          cases result with
          | none => exact absurd rfl first
          | some command =>
              rw [List.foldl_cons, ih (by simp [parseSegment, going, parsed]) fun index => ?_]
              · simp [parseSegment, going, parsed]
              · have later := accepted (index + 1)
                rw [rejected_succ] at later
                simpa [parseSegment, going, parsed] using later

/-- The exit code changes only when a segment is rejected. -/
theorem parseReadLine_lastExitCode {outcomes : FileOutcomes} {line : CString} {parser : ParserState}
    {lastExitCode : Int} (accepted : ∀ index, ¬ Rejected outcomes parser (segments line) index) :
    (parseReadLine outcomes line parser lastExitCode).lastExitCode = lastExitCode := by
  unfold parseReadLine
  split
  · rfl
  · dsimp only
    split
    · rfl
    · rw [(splitStringKeepTrace_backgroundFlag line).1]
      exact foldl_parseSegment_lastExitCode rfl accepted

/-- The segment at `index` is the last one, is made of spaces, and no background flag
follows it. -/
def BlankTail (line : CString) (index : Nat) : Prop :=
  index + 1 = (segments line).length ∧ (∀ segment ∈ (segments line)[index]?, ∀ char ∈ segment, char = ' ') ∧
    line.getLast? ≠ some '&'

/-- A rejected segment rejects the line, unless it is the last one, the segments before
it are accepted and there are some, and it is not left out as a blank tail. -/
theorem parseReadLine_rejects_iff (outcomes : FileOutcomes) (line : CString) (parser : ParserState)
    (lastExitCode : Int) :
    ((∃ index, Rejected outcomes parser (segments line) index ∧ ¬ BlankTail line index) →
        (parseReadLine outcomes line parser lastExitCode).commands = none) ↔
      ¬ (startsWith line backgroundFlag.text = false ∧
        ∃ last, 0 < last ∧ last + 1 = (segments line).length ∧
          (∀ index < last, ¬ Rejected outcomes parser (segments line) index) ∧
          Rejected outcomes parser (segments line) last ∧ ¬ BlankTail line last) := by
  rw [parseReadLine_none_iff]
  constructor
  · rintro refuses ⟨unflagged, last, positive, atEnd, accepted, rejected, noTail⟩
    rcases refuses ⟨last, rejected, noTail⟩ with flagged | empty | ⟨index, early, bad⟩ | ⟨one, _⟩
    · rw [unflagged] at flagged
      cases flagged
    · simp [empty] at atEnd
    · exact accepted index (by omega) bad
    · omega
  · rintro excluded ⟨index, rejected, noTail⟩
    by_contra returned
    simp only [not_or, not_exists, not_and] at returned
    obtain ⟨unflagged, _, accepted, notOne⟩ := returned
    have inside : index < (segments line).length := by
      obtain ⟨segment, entry, _⟩ := rejected
      exact (List.getElem?_eq_some_iff.mp entry).1
    have atEnd : index + 1 = (segments line).length := by
      by_contra different
      exact accepted index (by omega) rejected
    refine excluded ⟨by simpa using unflagged, index, ?_, atEnd, ?_, rejected, noTail⟩
    · by_contra zero
      obtain rfl : index = 0 := by omega
      exact notOne atEnd.symm rejected
    · intro earlier before
      exact accepted earlier (by omega)

/-- Outcomes where no file can be opened. -/
def FileOutcomes.noFile : FileOutcomes :=
  { openError := fun _ => some "No such file or directory".toList
    pipeSucceeds := fun _ => true
    freed := fun _ => ⟨0, 0, 0⟩ }

/-- `a & b < missing` runs `a`, although the redirection of `b` fails. -/
theorem failed_last_redirection_runs_line :
    (∃ index, Rejected .noFile startedShell (segments "a & b < missing".toList) index ∧
        ¬ BlankTail "a & b < missing".toList index) ∧
      (parseReadLine .noFile "a & b < missing".toList startedShell 0).commands ≠ none := by
  refine ⟨⟨1, ⟨" b < missing".toList, ?_, ?_⟩, ?_⟩, ?_⟩
  · decide +kernel
  · decide +kernel
  · rintro ⟨_, blank, _⟩
    have spaces := blank " b < missing".toList (by decide +kernel)
    exact absurd (spaces 'b' (by decide)) (by decide)
  · decide +kernel

end Jsh
