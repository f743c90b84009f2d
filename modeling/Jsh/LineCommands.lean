import Jsh.BackgroundFlags
import Jsh.LineEnds
import Jsh.SyntaxErrors

/-!
# Commands of a line

The commands that `parse_read_line` returns, each with the segment and the tree it has
been parsed from. What the parse of a segment opens stays open to the end of the line's
parse, so that the commands of a line claim different descriptors.
-/

set_option autoImplicit false

namespace Jsh

open Library

/-! ## What a parse adds -/

/-- Descriptors and calls of `open` have only been added. -/
structure Kernel.Grows (kernel kernel' : Kernel) : Prop where
  kept : ∀ descriptor ∈ kernel.descriptors, descriptor ∈ kernel'.descriptors
  opens : kernel.opens <+: kernel'.opens

theorem Kernel.Grows.refl (kernel : Kernel) : kernel.Grows kernel :=
  ⟨fun _ member => member, List.prefix_refl _⟩

theorem Kernel.Grows.trans {first second third : Kernel} (before : first.Grows second)
    (after : second.Grows third) : first.Grows third :=
  ⟨fun descriptor member => after.kept descriptor (before.kept descriptor member),
    before.opens.trans after.opens⟩

section Parsing

variable {outcomes : FileOutcomes}

theorem opens_parseCommand_prefix {segment : CString} {state : ParserState} :
    state.kernel.opens <+: (parseCommand outcomes segment state).2.kernel.opens := by
  cases nonblank : newEmptyCommand segment with
  | false => rw [parseCommand_blank nonblank]
  | true =>
      rw [opens_parseCommand nonblank]
      exact (opens_grow outcomes).1 segment false false state.entering

/-- A parse that does not read a freed call only adds. -/
theorem parseCommand_grows {segment : CString} {state : ParserState}
    (valid : state.kernel.Valid)
    (intact : (parseCommand outcomes segment state).1 = none →
      ∀ own, ¬ ReadsFreedCall outcomes segment state own) :
    state.kernel.Grows (parseCommand outcomes segment state).2.kernel := by
  refine ⟨?_, opens_parseCommand_prefix⟩
  cases parsed : parseCommand outcomes segment state with
  | mk result state' =>
      cases result with
      | some command => exact (parseCommand_obtained valid parsed).kept
      | none =>
          have complete : Complete (fun _ => False) outcomes := .inr fun _ none => none.elim
          exact (parseCommand_closes valid complete (intact (by rw [parsed])) parsed).1

theorem parsedSegments_valid (segments : List CString) {parser : ParserState}
    (valid : parser.kernel.Valid) : (parsedSegments outcomes parser segments).kernel.Valid := by
  induction segments generalizing parser with
  | nil => exact valid
  | cons segment segments ih => exact ih (@parseCommand_valid outcomes segment _ valid)

/-- What a freed call does not name is kept. -/
theorem parseCommand_keeps {segment : CString} {state : ParserState} {descriptor : Descriptor}
    (valid : state.kernel.Valid) (untouched : Untouched outcomes descriptor.number)
    (opened : descriptor ∈ state.kernel.descriptors) :
    descriptor ∈ (parseCommand outcomes segment state).2.kernel.descriptors := by
  cases parsed : parseCommand outcomes segment state with
  | mk result state' =>
      cases result with
      | some command => exact (parseCommand_obtained valid parsed).kept descriptor opened
      | none =>
          have complete : Complete (fun _ => False) outcomes := .inr fun _ none => none.elim
          obtain ⟨_, ⟨kept, _⟩ | ⟨_, _, kept, _⟩⟩ := parseCommand_none valid complete parsed
          · exact kept descriptor opened
          · exact kept descriptor opened untouched

theorem parsedSegments_keeps (segments : List CString) {parser : ParserState}
    {descriptor : Descriptor} (valid : parser.kernel.Valid)
    (untouched : Untouched outcomes descriptor.number)
    (opened : descriptor ∈ parser.kernel.descriptors) :
    descriptor ∈ (parsedSegments outcomes parser segments).kernel.descriptors := by
  induction segments generalizing parser with
  | nil => exact opened
  | cons segment segments ih =>
      exact ih (parseCommand_valid valid) (parseCommand_keeps valid untouched opened)

theorem parsedSegments_append (first second : List CString) (parser : ParserState) :
    parsedSegments outcomes parser (first ++ second) =
      parsedSegments outcomes (parsedSegments outcomes parser first) second :=
  List.foldl_append

theorem parsedSegments_take_succ {segments : List CString} {parser : ParserState} {index : Nat}
    {segment : CString} (found : segments[index]? = some segment) :
    parsedSegments outcomes parser (segments.take (index + 1)) =
      (parseCommand outcomes segment (parsedSegments outcomes parser (segments.take index))).2 := by
  rw [List.take_add_one, found, parsedSegments_append]
  rfl

section Segments

variable {segments : List CString} {parser : ParserState}

/-- What the segments before the first rejected one open stays open. -/
theorem parsedSegments_succ_grows (valid : parser.kernel.Valid)
    (intact : ∀ own, ¬ SegmentsReadFreed outcomes parser segments own) {index : Nat}
    (accepted : ∀ earlier < index, ¬ Rejected outcomes parser segments earlier) :
    (parsedSegments outcomes parser (segments.take index)).kernel.Grows
      (parsedSegments outcomes parser (segments.take (index + 1))).kernel := by
  cases found : segments[index]? with
  | none =>
      rw [List.take_add_one, found, Option.toList_none, List.append_nil]
      exact .refl _
  | some segment =>
      rw [parsedSegments_take_succ found]
      refine parseCommand_grows (parsedSegments_valid _ valid) fun refused own reads => ?_
      exact intact own ⟨index, segment, ⟨⟨segment, found, refused⟩, accepted⟩, found, reads⟩

theorem parsedSegments_take_grows (valid : parser.kernel.Valid)
    (intact : ∀ own, ¬ SegmentsReadFreed outcomes parser segments own) {before after : Nat}
    (accepted : ∀ earlier, earlier + 1 < after → ¬ Rejected outcomes parser segments earlier)
    (later : before ≤ after) :
    (parsedSegments outcomes parser (segments.take before)).kernel.Grows
      (parsedSegments outcomes parser (segments.take after)).kernel := by
  induction after, later using Nat.le_induction with
  | base => exact .refl _
  | succ after _ ih =>
      refine (ih fun earlier early => accepted earlier (by omega)).trans ?_
      exact parsedSegments_succ_grows valid intact fun earlier early => accepted earlier (by omega)

end Segments

/-- The loop of `parse_read_line`, unless it aborts, hands all segments to the parser. -/
theorem foldl_parseSegment_parsed {total : Nat} {last : Int} (segments : List CString) :
    ∀ {loop : LineLoop}, loop.abort = false →
      (segments.foldl (parseSegment outcomes total last) loop).abort = false →
      (segments.foldl (parseSegment outcomes total last) loop).parser =
        parsedSegments outcomes loop.parser segments := by
  induction segments with
  | nil => exact fun _ _ => rfl
  | cons segment segments ih =>
      intro loop going finished
      rw [List.foldl_cons] at finished ⊢
      cases aborts : (parseSegment outcomes total last loop segment).abort with
      | true =>
          rw [foldl_parseSegment_abort outcomes total last segments aborts] at finished
          cases finished
      | false =>
          have next : (parseSegment outcomes total last loop segment).parser =
              (parseCommand outcomes segment loop.parser).2 := by
            unfold parseSegment
            rw [going, if_neg Bool.false_ne_true]
            dsimp only
            split
            next parsed =>
              rw [parsed]
              split <;> rfl
            next parsed => rw [parsed]
          rw [ih aborts finished, next]
          rfl

theorem parseReadLine_parsed {line : CString} {parser : ParserState} {lastExitCode : Int}
    {commands : List (Option Command)}
    (returned : (parseReadLine outcomes line parser lastExitCode).commands = some commands) :
    (parseReadLine outcomes line parser lastExitCode).parser =
      parsedSegments outcomes parser (segments line) := by
  obtain ⟨tokens, size⟩ := splitStringKeepTrace_backgroundFlag line
  unfold parseReadLine at returned ⊢
  by_cases flagged : startsWith line backgroundFlag.text = true
  · rw [if_pos flagged] at returned
    cases returned
  · rw [if_neg flagged] at returned ⊢
    dsimp only at returned ⊢
    rw [tokens, size] at returned ⊢
    by_cases empty : (segments line).length = 0
    · rw [if_pos empty] at returned
      cases returned
    · rw [if_neg empty] at returned ⊢
      dsimp only at returned ⊢
      refine foldl_parseSegment_parsed (segments line) rfl ?_
      cases aborted : ((segments line).foldl (parseSegment outcomes (segments line).length
          (splitStringKeepTrace line backgroundFlag).last)
          { parser, lastExitCode, commands := [], abort := false, trimLast := false }).abort with
      | false => rfl
      | true =>
          rw [if_pos aborted] at returned
          cases returned

/-- `parse_read_line` hands the segments to the parser up to the first rejected one. -/
theorem parseReadLine_taken (line : CString) (parser : ParserState) (lastExitCode : Int) :
    (parseReadLine outcomes line parser lastExitCode).parser = parser ∨
      startsWith line backgroundFlag.text = false ∧
        ∃ count, (parseReadLine outcomes line parser lastExitCode).parser =
            parsedSegments outcomes parser ((segments line).take count) ∧
          ∀ earlier, earlier + 1 < count → ¬ Rejected outcomes parser (segments line) earlier := by
  cases flagged : startsWith line backgroundFlag.text with
  | true =>
      left
      rw [parseReadLine, if_pos flagged]
  | false =>
      refine .inr ⟨rfl, ?_⟩
      by_cases rejected : ∃ index, Rejected outcomes parser (segments line) index
      · obtain ⟨index, segment, first, found⟩ := exists_firstRejected rejected
        refine ⟨index + 1, ?_, fun earlier early => first.accepted earlier (by omega)⟩
        rw [parsedSegments_take_succ found, parseReadLine_first flagged first found]
      · rw [not_exists] at rejected
        refine ⟨(segments line).length, ?_, fun earlier _ => rejected earlier⟩
        rw [parseReadLine_folded flagged, List.take_length]
        refine foldl_parseSegment_parsed (segments line) rfl ?_
        obtain ⟨aborts, _⟩ := foldl_parseSegment outcomes (segments line).length
          (splitStringKeepTrace line backgroundFlag).last (segments line)
          (show LineLoop.abort
            { parser, lastExitCode, commands := [], abort := false, trimLast := false } = false from
              rfl) (Nat.zero_add _)
        rw [← Bool.not_eq_true, aborts]
        rintro ⟨index, _, bad⟩
        exact rejected index bad

theorem parseReadLine_keeps {line : CString} {parser : ParserState} {lastExitCode : Int}
    {descriptor : Descriptor} (valid : parser.kernel.Valid)
    (untouched : Untouched outcomes descriptor.number)
    (opened : descriptor ∈ parser.kernel.descriptors) :
    descriptor ∈ (parseReadLine outcomes line parser lastExitCode).parser.kernel.descriptors := by
  rcases parseReadLine_taken line parser lastExitCode with same | ⟨_, count, same, _⟩
  · rw [same]
    exact opened
  · rw [same]
    exact parsedSegments_keeps _ valid untouched opened

/-- Whatever `parse_read_line` returns, it only adds, unless it reads a freed call. -/
theorem parseReadLine_grows {line : CString} {parser : ParserState} {lastExitCode : Int}
    (valid : parser.kernel.Valid) (intact : LineIntact outcomes line parser) :
    parser.kernel.Grows (parseReadLine outcomes line parser lastExitCode).parser.kernel := by
  rcases parseReadLine_taken line parser lastExitCode with same | ⟨unflagged, count, same, accepted⟩
  · rw [same]
    exact .refl _
  · rw [same]
    have grows := parsedSegments_take_grows valid (fun own reads => intact own ⟨unflagged, reads⟩)
      accepted (Nat.zero_le count)
    rwa [List.take_zero] at grows

end Parsing

/-! ## The commands -/

/-- Only the last segment of an accepted line can be rejected. -/
theorem parseReadLine_accepted {outcomes : FileOutcomes} {line : CString} {parser : ParserState}
    {lastExitCode : Int} {commands : List (Option Command)}
    (returned : (parseReadLine outcomes line parser lastExitCode).commands = some commands) :
    startsWith line backgroundFlag.text = false ∧
      ∀ index, index + 1 < (segments line).length →
        ¬ Rejected outcomes parser (segments line) index := by
  have accepted : (parseReadLine outcomes line parser lastExitCode).commands ≠ none := by
    rw [returned]
    exact Option.some_ne_none _
  rw [Ne, parseReadLine_none_iff, not_or, not_or, not_or] at accepted
  obtain ⟨unflagged, _, before, _⟩ := accepted
  exact ⟨Bool.eq_false_iff.mpr unflagged, fun index early bad => before ⟨index, early, bad⟩⟩

/-- Within an accepted line nothing is closed. -/
theorem parseReadLine_take_grows {outcomes : FileOutcomes} {line : CString}
    {parser : ParserState} {lastExitCode : Int} {commands : List (Option Command)}
    (valid : parser.kernel.Valid) (intact : LineIntact outcomes line parser)
    (returned : (parseReadLine outcomes line parser lastExitCode).commands = some commands)
    {before after : Nat} (inside : after ≤ (segments line).length) (later : before ≤ after) :
    (parsedSegments outcomes parser ((segments line).take before)).kernel.Grows
      (parsedSegments outcomes parser ((segments line).take after)).kernel := by
  obtain ⟨unflagged, accepted⟩ := parseReadLine_accepted returned
  refine parsedSegments_take_grows valid (fun own reads => intact own ⟨unflagged, reads⟩) ?_ later
  exact fun earlier early => accepted earlier (Nat.lt_of_lt_of_le early inside)

/-- The command at `index` of a line: its segment and its tree. Before the segment nothing
has been closed, and up to the end of the line nothing is. -/
structure LineCommand (outcomes : FileOutcomes) (line : CString) (start parsed : ParserState)
    (index : Nat) (command : Command) (segment : CString) (tree : Pipeline Labels.wired) :
    Prop where
  found : (segments line)[index]? = some segment
  read : CommandRead outcomes segment
    (parsedSegments outcomes start ((segments line).take index))
    (parsedSegments outcomes start ((segments line).take (index + 1)))
    { command with background := false } tree
  obtained : Obtained segment command
    (parsedSegments outcomes start ((segments line).take index)).kernel
    (parsedSegments outcomes start ((segments line).take (index + 1))).kernel
  before : start.kernel.Grows (parsedSegments outcomes start ((segments line).take index)).kernel
  after : (parsedSegments outcomes start ((segments line).take (index + 1))).kernel.Grows
    parsed.kernel

theorem readLine_lineCommand {environment : Environment} {line : CString} {start parsed : Shell}
    {commands : List (Option Command)} (valid : start.parser.kernel.Valid)
    (intact : LineIntact environment.files line start.parser)
    (read : readLine environment line start = .ok (some commands) parsed) {index : Nat}
    {command : Command} (entry : commands[index]? = some (some command)) :
    ∃ segment tree, LineCommand environment.files line start.parser parsed.parser index command
      segment tree := by
  obtain ⟨returned, parser⟩ := readLine_parsed read
  rw [parseReadLine_parsed returned.symm] at parser
  have grows : ∀ {before after : Nat}, _ :=
    @parseReadLine_take_grows _ _ _ _ _ valid intact returned.symm
  obtain ⟨_, _, _, count, shape, _⟩ := parseReadLine_commands returned.symm
  rw [shape, List.getElem?_take] at entry
  split at entry
  · rw [parsedCommands_getElem?] at entry
    obtain ⟨segment, found, entry⟩ := Option.map_eq_some_iff.mp entry
    obtain ⟨made, accepted, rfl⟩ := Option.map_eq_some_iff.mp entry
    have bounded := (List.getElem?_eq_some_iff.mp found).1
    have next := @parsedSegments_take_succ environment.files _ start.parser _ _ found
    have valid' := @parsedSegments_valid environment.files ((segments line).take index) _ valid
    have before := grows (Nat.le_of_lt bounded) (Nat.zero_le index)
    have parsed' : parseCommand environment.files segment
        (parsedSegments environment.files start.parser ((segments line).take index)) =
          (some made, parsedSegments environment.files start.parser
            ((segments line).take (index + 1))) := Prod.ext accepted next.symm
    obtain ⟨tree, read⟩ := parseCommand_some valid' parsed'
    have obtained := parseCommand_obtained valid' parsed'
    refine ⟨segment, tree, found, ?_, ?_, before, ?_⟩
    · have foreground := read.background
      obtain ⟨name, calls, background, pipes⟩ := made
      cases foreground
      exact read
    · obtain ⟨valid, kept, pipes, sound, distinct, claimed, ends, made, unpiped⟩ := obtained
      exact ⟨valid, kept, pipes, ⟨sound.above, sound.single⟩, distinct, claimed, ends, made,
        unpiped⟩
    · have whole := grows (Nat.le_refl _) bounded
      rw [List.take_length] at whole
      rw [parser]
      exact whole
  · cases entry

/-- The commands of a line claim different numbers. -/
structure Disjoint (commands : List Command) : Prop where
  sound : ∀ command ∈ commands, command.Sound
  apart : commands.Pairwise fun before after =>
    ∀ number, before.Claims number → ¬ after.Claims number

theorem readLine_disjoint {environment : Environment} {line : CString} {start parsed : Shell}
    {commands : List Command} (valid : start.parser.kernel.Valid)
    (intact : LineIntact environment.files line start.parser)
    (read : readLine environment line start = .ok (some (commands.map some)) parsed) :
    Disjoint commands := by
  have entry : ∀ index (inside : index < commands.length), ∃ segment tree,
      LineCommand environment.files line start.parser parsed.parser index commands[index] segment
        tree := by
    intro index inside
    refine readLine_lineCommand valid intact read ?_
    rw [List.getElem?_map, List.getElem?_eq_getElem inside]
    rfl
  constructor
  case sound =>
    intro command member
    obtain ⟨index, inside, rfl⟩ := List.getElem_of_mem member
    obtain ⟨segment, tree, made⟩ := entry index inside
    exact made.obtained.sound
  case apart =>
    rw [List.pairwise_iff_getElem]
    intro first second inside inside' order number claims claims'
    obtain ⟨_, _, made⟩ := entry first inside
    obtain ⟨_, _, made'⟩ := entry second inside'
    have later : first + 1 ≤ second := order
    have bounded := (List.getElem?_eq_some_iff.mp made'.found).1
    have grows := parseReadLine_take_grows valid intact (readLine_parsed read).1.symm
      (Nat.le_of_lt bounded) later
    have present := numbers_mono grows.kept (made.obtained.claimed number claims).1
    exact (made'.obtained.claimed number claims').2 present

end Jsh
