import Mathlib.Data.Nat.Find
import Jsh.FreedDescriptors
import Jsh.ReadLine

/-!
# Rejected lines

What is left of a line that `parse_read_line` gives up: the exit code it sets and the
descriptors of the segments it has already parsed.
-/

set_option autoImplicit false

namespace Jsh

/-! ## The exit code -/

/-- A line that is empty or made of spaces. -/
def Blank (line : CString) : Prop := ∀ char ∈ line, char = ' '

theorem segments_of_blank {line : CString} (blank : Blank line) (nonempty : line ≠ []) :
    segments line = [line] := by
  have single : line.splitOn '&' = [line] := by
    apply List.splitOn_eq_singleton
    intro member
    cases blank _ member
  simp [segments, single, nonempty]

theorem segments_eq_nil {line : CString} (empty : segments line = [])
    (unflagged : startsWith line backgroundFlag.text = false) : line = [] := by
  cases line with
  | nil => rfl
  | cons char rest =>
      have other : (char == '&') = false := by
        apply Bool.eq_false_iff.mpr
        intro flag
        simp [startsWith, backgroundFlag, beq_iff_eq.mp flag] at unflagged
      unfold segments at empty
      rw [List.splitOn_cons_eq_if_modifyHead, other, if_neg Bool.false_ne_true] at empty
      cases pieces : rest.splitOn '&' with
      | nil => exact absurd pieces (List.splitOn_ne_nil _ _)
      | cons first others => simp [pieces] at empty

theorem isOnlyComposedOf_of_blank {line : CString} (blank : Blank line) :
    isOnlyComposedOf line commandSeparator = true := by
  induction line with
  | nil => simp [isOnlyComposedOf]
  | cons char rest ih =>
      have space := blank char (.head _)
      subst space
      rw [isOnlyComposedOf, if_neg (by simp), if_pos (by simp [commandSeparator_single, startsWith])]
      exact ih fun other member => blank other (.tail _ member)

theorem rejected_of_blank {outcomes : FileOutcomes} {parser : ParserState} {line : CString}
    (blank : Blank line) (nonempty : line ≠ []) :
    Rejected outcomes parser (segments line) 0 := by
  rw [segments_of_blank blank nonempty, rejected_zero, parseCommand_blank]
  simp [newEmptyCommand, isOnlyComposedOf_of_blank blank]

section Loop

variable {outcomes : FileOutcomes} {total : Nat} {last : Int}

/-- An exit code of 1 stays. -/
theorem foldl_parseSegment_one (segments : List CString) {loop : LineLoop}
    (failed : loop.lastExitCode = 1) :
    (segments.foldl (parseSegment outcomes total last) loop).lastExitCode = 1 := by
  induction segments generalizing loop with
  | nil => exact failed
  | cons segment rest ih =>
      apply ih
      unfold parseSegment
      dsimp only
      split
      · exact failed
      · split
        · split <;> rfl
        · exact failed

theorem foldl_parseSegment_rejected {segments : List CString} {loop : LineLoop} {index : Nat}
    (going : loop.abort = false) (rejected : Rejected outcomes loop.parser segments index) :
    (segments.foldl (parseSegment outcomes total last) loop).lastExitCode = 1 := by
  induction segments generalizing loop index with
  | nil =>
      obtain ⟨segment, entry, _⟩ := rejected
      cases entry
  | cons segment rest ih =>
      cases parsed : parseCommand outcomes segment loop.parser with
      | mk result parser =>
          cases result with
          | none =>
              apply foldl_parseSegment_one rest
              unfold parseSegment
              dsimp only
              rw [if_neg (by simp [going]), parsed]
              dsimp only
              split <;> rfl
          | some command =>
              cases index with
              | zero =>
                  rw [rejected_zero, parsed] at rejected
                  cases rejected
              | succ index =>
                  rw [rejected_succ, parsed] at rejected
                  apply @ih _ index
                  · simp [parseSegment, going, parsed]
                  · simpa [parseSegment, going, parsed] using rejected

end Loop

theorem parseReadLine_rejected {outcomes : FileOutcomes} {line : CString} {parser : ParserState}
    {lastExitCode : Int} {index : Nat} (unflagged : startsWith line backgroundFlag.text = false)
    (rejected : Rejected outcomes parser (segments line) index) :
    (parseReadLine outcomes line parser lastExitCode).lastExitCode = 1 := by
  obtain ⟨tokens, size⟩ := splitStringKeepTrace_backgroundFlag line
  have nonempty : (segments line).length ≠ 0 := by
    obtain ⟨segment, entry, _⟩ := rejected
    have := (List.getElem?_eq_some_iff.mp entry).1
    omega
  unfold parseReadLine
  rw [if_neg (by simp [unflagged])]
  dsimp only
  rw [size, if_neg nonempty, tokens]
  exact foldl_parseSegment_rejected rfl rejected

/-- A line without a rejected segment reads no freed call. -/
theorem lineIntact_of_lastExitCode {outcomes : FileOutcomes} {line : CString}
    {parser : ParserState} (succeeds : (parseReadLine outcomes line parser 0).lastExitCode = 0) :
    LineIntact outcomes line parser := by
  rintro own ⟨unflagged, index, _, first, _⟩
  rw [parseReadLine_rejected unflagged first.rejected] at succeeds
  cases succeeds

/-- The exit code after a line. -/
theorem parseReadLine_lastExitCode_eq (outcomes : FileOutcomes) (line : CString)
    (parser : ParserState) (lastExitCode : Int) :
    (startsWith line backgroundFlag.text = false ∧
          (∃ index, Rejected outcomes parser (segments line) index) ∧
        (parseReadLine outcomes line parser lastExitCode).lastExitCode = 1) ∨
      ((startsWith line backgroundFlag.text = true ∨
          ∀ index, ¬ Rejected outcomes parser (segments line) index) ∧
        (parseReadLine outcomes line parser lastExitCode).lastExitCode = lastExitCode) := by
  cases flagged : startsWith line backgroundFlag.text with
  | true =>
      refine .inr ⟨.inl rfl, ?_⟩
      rw [parseReadLine, if_pos flagged]
  | false =>
      by_cases rejected : ∃ index, Rejected outcomes parser (segments line) index
      · obtain ⟨index, refuses⟩ := rejected
        exact .inl ⟨rfl, ⟨index, refuses⟩, parseReadLine_rejected flagged refuses⟩
      · rw [not_exists] at rejected
        exact .inr ⟨.inr rejected, parseReadLine_lastExitCode rejected⟩

/-- `parse_read_line` sets the exit code to 1 exactly for the lines it rejects that
contain a command, unless the line starts with a background flag, is made of spaces, or
is accepted although its last segment is rejected. -/
theorem parseReadLine_exit_code_iff (outcomes : FileOutcomes) (line : CString)
    (parser : ParserState) (lastExitCode : Int) :
    let read := parseReadLine outcomes line parser lastExitCode
    ((read.commands = none ∧ ¬ Blank line → read.lastExitCode = 1) ∧
        (read.commands ≠ none ∨ Blank line → read.lastExitCode = lastExitCode)) ↔
      lastExitCode = 1 ∨
        startsWith line backgroundFlag.text = false ∧ (Blank line → line = []) ∧
          ∀ last, 0 < last → last + 1 = (segments line).length →
            (∀ index < last, ¬ Rejected outcomes parser (segments line) index) →
            ¬ Rejected outcomes parser (segments line) last := by
  intro read
  have refuses : read.commands = none ↔ _ := parseReadLine_none_iff
  have inside : ∀ {index}, Rejected outcomes parser (segments line) index →
      index < (segments line).length := by
    rintro index ⟨segment, entry, _⟩
    exact (List.getElem?_eq_some_iff.mp entry).1
  rcases parseReadLine_lastExitCode_eq outcomes line parser lastExitCode with
    ⟨unflagged, ⟨index, rejected⟩, one⟩ | ⟨kept, same⟩
  · -- Some segment is rejected, so the exit code is 1.
    have final : read.lastExitCode = 1 := one
    rw [final]
    constructor
    · rintro ⟨_, unchanged⟩
      by_cases already : lastExitCode = 1
      · exact .inl already
      · refine .inr ⟨unflagged, fun blank => ?_, fun last positive atEnd accepted rejectedLast => ?_⟩
        · exact absurd (unchanged (.inr blank)).symm already
        · refine absurd (unchanged (.inl fun none => ?_)).symm already
          rcases refuses.mp none with flagged | empty | ⟨early, before, bad⟩ | ⟨single, _⟩
          · rw [unflagged] at flagged
            cases flagged
          · simp [empty] at atEnd
          · exact accepted early (by omega) bad
          · omega
    · rintro (already | ⟨_, nonblank, sound⟩)
      · exact ⟨fun _ => rfl, fun _ => already.symm⟩
      · refine ⟨fun _ => rfl, fun returned => ?_⟩
        rcases returned with accepted | blank
        · have clear : ∀ early, early + 1 < (segments line).length →
              ¬ Rejected outcomes parser (segments line) early := fun early before bad =>
            accepted (refuses.mpr (.inr (.inr (.inl ⟨early, before, bad⟩))))
          have below := inside rejected
          have atEnd : index + 1 = (segments line).length := by
            by_contra different
            exact clear index (by omega) rejected
          have positive : 0 < index := by
            apply Nat.pos_of_ne_zero
            rintro rfl
            exact accepted (refuses.mpr (.inr (.inr (.inr ⟨atEnd.symm, rejected⟩))))
          exact absurd rejected
            (sound index positive atEnd fun early before => clear early (by omega))
        · have empty := nonblank blank
          exact absurd (inside rejected) (by simp [empty, segments])
  · -- The exit code is unchanged.
    have final : read.lastExitCode = lastExitCode := same
    rw [final]
    constructor
    · rintro ⟨set, _⟩
      cases flagged : startsWith line backgroundFlag.text with
      | true =>
          left
          apply set
          refine ⟨refuses.mpr (.inl flagged), fun blank => ?_⟩
          cases line with
          | nil => cases flagged
          | cons char rest =>
              have space := blank char (.head _)
              subst space
              cases flagged
      | false =>
          have accepted := kept.resolve_left (by simp [flagged])
          refine .inr ⟨rfl, fun blank => ?_, fun last _ _ _ => accepted last⟩
          by_contra nonempty
          exact accepted 0 (rejected_of_blank blank nonempty)
    · intro sound
      refine ⟨fun ⟨refused, visible⟩ => ?_, fun _ => rfl⟩
      rcases sound with already | ⟨unflagged, _, _⟩
      · exact already
      · have accepted := kept.resolve_left (by simp [unflagged])
        rcases refuses.mp refused with flagged | empty | ⟨index, _, bad⟩ | ⟨_, bad⟩
        · rw [unflagged] at flagged
          cases flagged
        · have nothing := segments_eq_nil empty unflagged
          subst nothing
          exact absurd (fun char member => by cases member) visible
        · exact absurd bad (accepted index)
        · exact absurd bad (accepted 0)

/-- `ls & ` is accepted and sets the exit code to 1. -/
theorem trailing_space_sets_exit_code :
    let read := parseReadLine .allSucceed "ls & ".toList startedShell 0
    read.commands ≠ none ∧ read.lastExitCode ≠ 0 := by
  decide +kernel

/-! ## The descriptors of a rejected line -/

mutual

/-- A tree without symbols has neither links nor files. -/
theorem Pipeline.plain_iff : ∀ tree : Pipeline Labels.wired,
    (∀ word ∈ tree.words, containsString redirectionCaretSymbols word = false) ↔
      tree.links = [] ∧ tree.files = []
  | .mk name items .last => by
      have own := Items.plain_iff items
      simp only [Pipeline.words, Next.words, List.append_nil, List.forall_mem_cons, name.ordinary,
        true_and, Pipeline.links, Next.links, Pipeline.files, Next.files, List.append_eq_nil_iff]
      exact own
  | .mk name items (.pipe link rest) => by
      have symbol : containsString redirectionCaretSymbols pipeSymbol = true := by decide
      simp [Pipeline.words, Next.words, Pipeline.links, Next.links, symbol, or_imp, forall_and]

theorem Items.plain_iff : ∀ items : Items Labels.wired,
    (∀ word ∈ items.words, containsString redirectionCaretSymbols word = false) ↔
      items.links = [] ∧ items.files = [] ∧ items.redirected = []
  | .nil => by simp [Items.words, Items.links, Items.files, Items.redirected, heldDescriptors,
      Items.lastRedirection]
  | .word argument rest => by
      have following := Items.plain_iff rest
      simp only [Items.words, List.forall_mem_cons, argument.ordinary, true_and]
      exact following
  | .redirection symbol file label rest => by
      have caret : containsString redirectionCaretSymbols symbol.text = true := by
        cases symbol <;> decide
      have held : (Items.redirection symbol file label rest).redirected ≠ [] := by
        intro free
        have stream : (Items.redirection symbol file label rest).lastRedirection symbol.stream ≠
            none := by
          simp [Items.lastRedirection]
        apply stream
        simp only [Items.redirected, heldDescriptors, List.append_eq_nil_iff, Option.toList_eq_nil_iff]
          at free
        obtain ⟨⟨stdin, stdout⟩, stderr⟩ := free
        cases symbol <;> assumption
      simp [Items.words, caret, held]
  | .substitution link body rest => by
      have symbol : containsString redirectionCaretSymbols commandSubstitutionStart = true := by
        decide
      simp [Items.words, Items.links, symbol]

end

/-- An accepted command holds descriptors exactly when its string contains a symbol. -/
theorem parseCommand_keeps_iff {outcomes : FileOutcomes} {commandString : CString}
    {state state' : ParserState} {command : Command} (valid : state.kernel.Valid)
    (accepted : parseCommand outcomes commandString state = (some command, state')) :
    state'.kernel.Valid ∧
      (∀ descriptor ∈ state.kernel.descriptors, descriptor ∈ state'.kernel.descriptors) ∧
      ((∀ descriptor ∈ state'.kernel.descriptors, descriptor ∈ state.kernel.descriptors) ↔
        ∀ word ∈ runs commandString, containsString redirectionCaretSymbols word = false) := by
  obtain ⟨tree, read⟩ := parseCommand_some valid accepted
  refine ⟨read.wires.valid, fun descriptor member => ?_, ?_⟩
  · exact read.mem_descriptors.mpr (.inl member)
  · rw [← words_commandSeparator, ← read.words, tree.plain_iff]
    constructor
    · intro closed
      have fresh : ∀ descriptor, descriptor ∉ tree.links.flatMap Link.descriptors ++ tree.files := by
        intro descriptor entered
        have member : descriptor ∈ state'.kernel.descriptors := (read.entered entered).1
        exact read.wires.apart (closed descriptor member) entered rfl
      constructor
      · cases links : tree.links with
        | nil => rfl
        | cons link others =>
            refine absurd (List.mem_append_left _ ?_) (fresh ⟨link.writeEnd, .pipeWrite link.serial⟩)
            rw [links]
            exact List.mem_flatMap.mpr ⟨link, .head _, .head _⟩
      · cases files : tree.files with
        | nil => rfl
        | cons file others =>
            refine absurd (List.mem_append_right _ ?_) (fresh file)
            rw [files]
            exact .head _
    · rintro ⟨links, files⟩ descriptor member
      refine (read.mem_descriptors.mp member).resolve_right fun entered => ?_
      rw [links, files] at entered
      cases entered

theorem foldl_parseSegment_keepsParser (outcomes : FileOutcomes) (total : Nat) (last : Int)
    (segments : List CString) {loop : LineLoop} (abort : loop.abort = true) :
    (segments.foldl (parseSegment outcomes total last) loop).parser = loop.parser := by
  induction segments generalizing loop with
  | nil => rfl
  | cons segment rest ih =>
      rw [List.foldl_cons, ih (by simp [parseSegment, abort])]
      simp [parseSegment, abort]

/-- Nothing is parsed after the first rejected segment. -/
theorem foldl_parseSegment_first {outcomes : FileOutcomes} {total : Nat} {last : Int}
    {segments : List CString} {segment : CString} {loop : LineLoop} {index : Nat}
    (going : loop.abort = false) (counted : loop.commands.length + segments.length = total)
    (first : FirstRejected outcomes loop.parser segments index)
    (found : segments[index]? = some segment) :
    (segments.foldl (parseSegment outcomes total last) loop).parser =
      (parseCommand outcomes segment
        (parsedSegments outcomes loop.parser (segments.take index))).2 := by
  induction segments generalizing loop index with
  | nil => cases found
  | cons head rest ih =>
      rw [List.length_cons] at counted
      cases parsed : parseCommand outcomes head loop.parser with
      | mk result parser =>
          cases result with
          | none =>
              have zero : index = 0 := by
                by_contra later
                exact first.accepted 0 (Nat.pos_of_ne_zero later) (rejected_zero.mpr (by rw [parsed]))
              subst zero
              cases found
              rw [List.take_zero, parsedSegments, List.foldl_nil, parsed, List.foldl_cons]
              cases rest with
              | nil =>
                  simp only [List.foldl_nil, parseSegment, going, parsed, Bool.false_eq_true,
                    if_false]
                  split <;> rfl
              | cons next others =>
                  have notLast : loop.commands.length ≠ total - 1 := by
                    simp only [List.length_cons] at counted
                    omega
                  rw [foldl_parseSegment_keepsParser outcomes total last]
                  · simp [parseSegment, going, parsed, notLast]
                  · simp [parseSegment, going, parsed, notLast]
          | some command =>
              cases index with
              | zero =>
                  have rejected := rejected_zero.mp first.rejected
                  rw [parsed] at rejected
                  cases rejected
              | succ index =>
                  have next : (parseSegment outcomes total last loop head).parser = parser ∧
                      (parseSegment outcomes total last loop head).abort = false ∧
                      (parseSegment outcomes total last loop head).commands.length =
                        loop.commands.length + 1 := by
                    simp [parseSegment, going, parsed]
                  obtain ⟨sameParser, sameAbort, longer⟩ := next
                  have head' : (parseCommand outcomes head loop.parser).2 = parser := by rw [parsed]
                  have first' : FirstRejected outcomes parser rest index :=
                    ⟨head' ▸ rejected_succ.mp first.rejected, fun earlier before bad =>
                      first.accepted (earlier + 1) (by omega) (rejected_succ.mpr (head' ▸ bad))⟩
                  rw [List.foldl_cons, ih sameAbort (by omega) (sameParser ▸ first') found, sameParser,
                    List.take_succ_cons, parsedSegments, parsedSegments, List.foldl_cons, head']

section Segments

variable {outcomes : FileOutcomes} {parser : ParserState} {segments : List CString} {index : Nat}

theorem accepted_tail {segment : CString} {rest : List CString} {parser' : ParserState}
    (next : (parseCommand outcomes segment parser).2 = parser')
    (accepted : ∀ earlier < index + 1, ¬ Rejected outcomes parser (segment :: rest) earlier) :
    ∀ earlier < index, ¬ Rejected outcomes parser' rest earlier :=
  fun earlier before bad =>
    accepted (earlier + 1) (by omega) (rejected_succ.mpr (next ▸ bad))

/-- What the accepted segments of a line have opened stays open. -/
theorem parsedSegments_keeps_iff (valid : parser.kernel.Valid)
    (accepted : ∀ earlier < index, ¬ Rejected outcomes parser segments earlier) :
    let state := parsedSegments outcomes parser (segments.take index)
    state.kernel.Valid ∧
      (∀ descriptor ∈ parser.kernel.descriptors, descriptor ∈ state.kernel.descriptors) ∧
      ((∀ descriptor ∈ state.kernel.descriptors, descriptor ∈ parser.kernel.descriptors) ↔
        ∀ segment ∈ segments.take index, ∀ word ∈ runs segment,
          containsString redirectionCaretSymbols word = false) := by
  induction segments generalizing parser index with
  | nil => simp [parsedSegments, valid]
  | cons segment rest ih =>
      cases index with
      | zero => simp [parsedSegments, valid]
      | succ index =>
          cases parsed : parseCommand outcomes segment parser with
          | mk result parser' =>
              have next : (parseCommand outcomes segment parser).2 = parser' := by rw [parsed]
              cases result with
              | none =>
                  refine absurd (rejected_zero.mpr ?_) (accepted 0 (Nat.succ_pos _))
                  rw [parsed]
              | some command =>
                  obtain ⟨valid', kept, keeps⟩ := parseCommand_keeps_iff valid parsed
                  obtain ⟨valid'', keptRest, keepsRest⟩ := ih valid' (accepted_tail next accepted)
                  intro state
                  have same : state = parsedSegments outcomes parser' (rest.take index) := by
                    simp only [state, List.take_succ_cons, parsedSegments, List.foldl_cons, next]
                  rw [same]
                  refine ⟨valid'', fun descriptor member => keptRest _ (kept _ member), ?_⟩
                  rw [List.take_succ_cons, List.forall_mem_cons, ← keeps, ← keepsRest]
                  constructor
                  · intro closed
                    exact ⟨fun descriptor member => closed _ (keptRest _ member),
                      fun descriptor member => kept _ (closed _ member)⟩
                  · rintro ⟨closed, closedRest⟩ descriptor member
                    exact closed _ (closedRest _ member)

theorem parsedSegments_withFreed (freed : Nat → Fds)
    (accepted : ∀ earlier < index, ¬ Rejected outcomes parser segments earlier) :
    parsedSegments { outcomes with freed } parser (segments.take index) =
      parsedSegments outcomes parser (segments.take index) := by
  induction segments generalizing parser index with
  | nil => rw [List.take_nil, parsedSegments, parsedSegments, List.foldl_nil, List.foldl_nil]
  | cons segment rest ih =>
      cases index with
      | zero => rfl
      | succ index =>
          cases parsed : parseCommand outcomes segment parser with
          | mk result parser' =>
              have next : (parseCommand outcomes segment parser).2 = parser' := by rw [parsed]
              cases result with
              | none =>
                  refine absurd (rejected_zero.mpr ?_) (accepted 0 (Nat.succ_pos _))
                  rw [parsed]
              | some command =>
                  have following := ih (accepted_tail next accepted)
                  simpa only [List.take_succ_cons, parsedSegments, List.foldl_cons, next,
                    parseCommand_withFreed freed parsed] using following

theorem rejected_withFreed (freed : Nat → Fds)
    (accepted : ∀ earlier < index, ¬ Rejected outcomes parser segments earlier) :
    Rejected { outcomes with freed } parser segments index ↔
      Rejected outcomes parser segments index := by
  unfold Rejected
  rw [parsedSegments_withFreed freed accepted]
  simp only [parseCommand_withFreed_none]

theorem FirstRejected.withFreed (first : FirstRejected outcomes parser segments index)
    (freed : Nat → Fds) : FirstRejected { outcomes with freed } parser segments index := by
  refine ⟨(rejected_withFreed freed first.accepted).mpr first.rejected, ?_⟩
  intro earlier before bad
  have sooner : ∀ still < earlier, ¬ Rejected outcomes parser segments still :=
    fun still early => first.accepted still (Nat.lt_trans early before)
  exact first.accepted earlier before ((rejected_withFreed freed sooner).mp bad)

theorem exists_firstRejected (rejected : ∃ index, Rejected outcomes parser segments index) :
    ∃ index segment, FirstRejected outcomes parser segments index ∧
      segments[index]? = some segment := by
  classical
  obtain ⟨segment, found, refused⟩ := Nat.find_spec rejected
  exact ⟨Nat.find rejected, segment,
    ⟨⟨segment, found, refused⟩, fun _ => Nat.find_min rejected⟩, found⟩

theorem FirstRejected.unique {other : Nat} (first : FirstRejected outcomes parser segments index)
    (first' : FirstRejected outcomes parser segments other) : other = index :=
  Nat.le_antisymm (Nat.le_of_not_lt fun later => first'.accepted _ later first.rejected)
    (Nat.le_of_not_lt fun earlier => first.accepted _ earlier first'.rejected)

end Segments

section Lines

variable {outcomes : FileOutcomes} {line : CString} {parser : ParserState} {lastExitCode : Int}

theorem parseReadLine_folded (unflagged : startsWith line backgroundFlag.text = false) :
    (parseReadLine outcomes line parser lastExitCode).parser =
      ((segments line).foldl (parseSegment outcomes (segments line).length
        (splitStringKeepTrace line backgroundFlag).last)
        { parser, lastExitCode, commands := [], abort := false, trimLast := false }).parser := by
  obtain ⟨tokens, size⟩ := splitStringKeepTrace_backgroundFlag line
  unfold parseReadLine
  rw [if_neg (by simp [unflagged])]
  dsimp only
  rw [size, tokens]
  split
  next empty =>
    rw [List.eq_nil_of_length_eq_zero empty]
    rfl
  next => rfl

theorem parseReadLine_first {index : Nat} {segment : CString}
    (unflagged : startsWith line backgroundFlag.text = false)
    (first : FirstRejected outcomes parser (segments line) index)
    (found : (segments line)[index]? = some segment) :
    (parseReadLine outcomes line parser lastExitCode).parser =
      (parseCommand outcomes segment
        (parsedSegments outcomes parser ((segments line).take index))).2 := by
  rw [parseReadLine_folded unflagged]
  refine foldl_parseSegment_first ?_ ?_ first found
  · rfl
  · exact Nat.zero_add _

/-- A rejected line with segments has a rejected one among them. -/
theorem exists_rejected (unflagged : startsWith line backgroundFlag.text = false)
    (refused : (parseReadLine outcomes line parser lastExitCode).commands = none)
    (nonempty : segments line ≠ []) : ∃ index, Rejected outcomes parser (segments line) index := by
  rcases parseReadLine_none_iff.mp refused with flag | none | ⟨index, _, bad⟩ | ⟨_, bad⟩
  · rw [unflagged] at flag
    cases flag
  · exact absurd none nonempty
  · exact ⟨index, bad⟩
  · exact ⟨0, bad⟩

/-- No segment accepted before the first rejected one contains a symbol. -/
theorem plain_before_iff {index : Nat}
    (first : FirstRejected outcomes parser (segments line) index) :
    (∀ segment ∈ (segments line).take index, ∀ word ∈ runs segment,
        containsString redirectionCaretSymbols word = false) ↔
      ∀ index, (∀ earlier ≤ index, ¬ Rejected outcomes parser (segments line) earlier) →
        ∀ segment ∈ (segments line)[index]?, ∀ word ∈ runs segment,
          containsString redirectionCaretSymbols word = false := by
  constructor
  · intro plain earlier accepted segment entry
    have before : earlier < index := by
      by_contra later
      exact accepted _ (Nat.le_of_not_lt later) first.rejected
    apply plain segment
    rw [List.mem_take_iff_getElem]
    obtain ⟨inside, same⟩ := List.getElem?_eq_some_iff.mp entry
    exact ⟨earlier, by omega, same⟩
  · intro plain segment member
    obtain ⟨earlier, inside, same⟩ := List.mem_take_iff_getElem.mp member
    apply plain earlier fun still before => first.accepted still (by omega)
    exact List.getElem?_eq_some_iff.mpr ⟨by omega, same⟩

/-- When `parse_read_line` returns `NULL`, everything opened for the line is closed again,
whatever the memory of a freed call holds, exactly when no segment accepted before the
rejected one contains a symbol and no freed call with redirections is read. -/
theorem parseReadLine_closes_iff (valid : parser.kernel.Valid)
    (pipes : ∀ serial, outcomes.pipeSucceeds serial = true)
    (refused : (parseReadLine outcomes line parser lastExitCode).commands = none) :
    (∀ freed, ∀ descriptor ∈ (parseReadLine { outcomes with freed } line parser
        lastExitCode).parser.kernel.descriptors, descriptor ∈ parser.kernel.descriptors) ↔
      startsWith line backgroundFlag.text = true ∨
        (∀ index, (∀ earlier ≤ index, ¬ Rejected outcomes parser (segments line) earlier) →
          ∀ segment ∈ (segments line)[index]?, ∀ word ∈ runs segment,
            containsString redirectionCaretSymbols word = false) ∧
          ¬ LineReadsFreed outcomes line parser true := by
  cases flagged : startsWith line backgroundFlag.text with
  | true => simp [parseReadLine, flagged]
  | false =>
      rw [or_iff_right Bool.false_ne_true]
      by_cases empty : segments line = []
      · have size : (splitStringKeepTrace line backgroundFlag).size = 0 := by
          rw [(splitStringKeepTrace_backgroundFlag line).2, empty]
          rfl
        simp [parseReadLine, flagged, size, empty, LineReadsFreed, SegmentsReadFreed]
      obtain ⟨index, segment, first, found⟩ :=
        exists_firstRejected (exists_rejected flagged refused empty)
      obtain ⟨valid', kept, keeps⟩ := parsedSegments_keeps_iff valid first.accepted
      rw [← plain_before_iff first, ← keeps]
      -- The state after the line, in terms of the one before its rejected segment.
      have final : ∀ freed, (parseReadLine { outcomes with freed } line parser
          lastExitCode).parser = (parseCommand { outcomes with freed } segment
            (parsedSegments outcomes parser ((segments line).take index))).2 := by
        intro freed
        rw [parseReadLine_first flagged (first.withFreed freed) found,
          parsedSegments_withFreed freed first.accepted]
      have refuses : ∀ freed, ∃ state', parseCommand { outcomes with freed } segment
          (parsedSegments outcomes parser ((segments line).take index)) = (none, state') := by
        intro freed
        obtain ⟨other, found', none⟩ := first.rejected
        cases found.symm.trans found'
        exact ⟨_, Prod.ext ((parseCommand_withFreed_none freed).mpr none) rfl⟩
      have complete : ∀ freed, Complete (fun _ => True) { outcomes with freed } :=
        fun _ => .inl pipes
      constructor
      · intro closed
        obtain ⟨state', parsed⟩ := refuses fun _ => ⟨0, 1, 2⟩
        have closed' := closed fun _ => ⟨0, 1, 2⟩
        rw [final, parsed] at closed'
        constructor
        · intro descriptor member
          apply closed'
          obtain ⟨_, ⟨all, _⟩ | ⟨_, _, untouched, _⟩⟩ := parseCommand_none valid' (complete _) parsed
          · exact all descriptor member
          · exact untouched descriptor member (untouched_standard _)
        · rintro ⟨_, other, segment', first', found', reads⟩
          cases first.unique first'
          cases found.symm.trans found'
          obtain ⟨final', parsed', _, left⟩ :=
            ((readsFreedCall_withFreed fun _ => ⟨0, 1, 2⟩).mpr reads).rejected valid'
          cases parsed.symm.trans parsed'
          obtain ⟨number, opened, new⟩ := left rfl untouched_standard
          obtain ⟨descriptor, member, rfl⟩ := Kernel.mem_numbers.mp opened
          exact new (Kernel.mem_numbers.mpr ⟨descriptor, kept _ (closed' descriptor member), rfl⟩)
      · rintro ⟨plain, intact⟩ freed descriptor member
        obtain ⟨state', parsed⟩ := refuses freed
        rw [final, parsed] at member
        obtain ⟨_, ⟨_, closed⟩ | ⟨own, reads, _, closed⟩⟩ :=
          parseCommand_none valid' (complete freed) parsed
        · exact plain descriptor (closed descriptor member trivial)
        · cases own with
          | false => exact plain descriptor (closed rfl descriptor member trivial)
          | true =>
              refine absurd ⟨flagged, index, segment, first, found, ?_⟩ intact
              exact (readsFreedCall_withFreed freed).mp reads

end Lines

/-- The line `ls & | & pwd` is rejected and leaves nothing open. -/
theorem rejected_line_closes :
    (parseReadLine .allSucceed "ls & | & pwd".toList startedShell 0).commands = none ∧
      ∀ freed, (parseReadLine { FileOutcomes.allSucceed with freed } "ls & | & pwd".toList
        startedShell 0).parser.kernel.descriptors ⊆ startedShell.kernel.descriptors := by
  have refused : (parseReadLine .allSucceed "ls & | & pwd".toList startedShell 0).commands =
      none := by decide +kernel
  have rejected : Rejected .allSucceed startedShell (segments "ls & | & pwd".toList) 1 :=
    ⟨" | ".toList, by decide +kernel, by decide +kernel⟩
  refine ⟨refused, (parseReadLine_closes_iff valid_startedShell (fun _ => rfl) refused).mpr
    (.inr ⟨fun index accepted segment entry => ?_, ?_⟩)⟩
  · have zero : index = 0 := by
      by_contra later
      exact accepted 1 (Nat.pos_of_ne_zero later) rejected
    subst zero
    have same : segment = "ls ".toList := by
      have first : (segments "ls & | & pwd".toList)[0]? = some "ls ".toList := by decide +kernel
      exact Option.some.inj (entry.symm.trans first)
    subst same
    decide +kernel
  · exact lineIntact_of_unsubstituted (by decide +kernel) true

/-- The line `ls | wc & | & pwd` is rejected and leaves the pipe of its first segment open. -/
theorem rejected_line_leaks_pipe :
    let read := parseReadLine .allSucceed "ls | wc & | & pwd".toList startedShell 0
    read.commands = none ∧
      ¬ ∀ descriptor ∈ read.parser.kernel.descriptors,
        descriptor ∈ startedShell.kernel.descriptors := by
  decide +kernel

end Jsh
