import Jsh.CommandStrings
import Jsh.LineCommands

/-!
# Text of a line

A line is written from the syntax trees of its commands, and `parse_read_line` reads the
same trees back, whatever the spaces between the words are.
-/

set_option autoImplicit false

namespace Jsh

/-! ## Lines as syntax -/

/-- The words of the tree can be told apart in a line. -/
def Pipeline.Legible (tree : Syntax) : Prop :=
  ∀ word ∈ tree.words, word ≠ [] ∧ ' ' ∉ word ∧ '&' ∉ word

/-- The text of a command: its words with a space between them. -/
def Pipeline.text (tree : Syntax) : CString := joinStrings tree.words [' ']

/-- The commands of a line: those in the background, and the last one if it is in the
foreground. -/
structure LineSyntax where
  background : List Syntax
  foreground : Option Syntax
  nonempty : background ++ foreground.toList ≠ []
  legible : ∀ tree ∈ background ++ foreground.toList, tree.Legible
  placed : ∀ tree ∈ background ++ foreground.toList, tree.Placed true true

/-- The trees of the commands, in their order. -/
def LineSyntax.trees (line : LineSyntax) : List Syntax := line.background ++ line.foreground.toList

/-- Which commands are in the background. -/
def LineSyntax.flags (line : LineSyntax) : List Bool :=
  line.background.map (fun _ => true) ++ line.foreground.toList.map fun _ => false

/-- The text of a line: a flag behind each command in the background. -/
def LineSyntax.text (line : LineSyntax) : CString :=
  line.background.flatMap (fun tree => tree.text ++ backgroundFlag.text) ++
    line.foreground.toList.flatMap Pipeline.text

/-- The string is a way to write the line. -/
structure LineSyntax.Spelled (line : LineSyntax) (string : CString) : Prop where
  unflagged : startsWith string backgroundFlag.text = false
  words : (segments string).map runs = line.trees.map Pipeline.words
  flagged : string.getLast? = some '&' ↔ line.foreground = none

/-! ## The text spells the line -/

theorem mem_joinStrings {char : Char} {separator : CString} {tokens : List CString}
    (member : char ∈ joinStrings tokens separator) :
    char ∈ separator ∨ ∃ token ∈ tokens, char ∈ token := by
  induction tokens with
  | nil => cases member
  | cons token rest ih =>
      cases rest with
      | nil => exact .inr ⟨token, .head _, member⟩
      | cons next later =>
          rw [joinStrings, List.append_assoc, List.mem_append, List.mem_append] at member
          rcases member with first | between | later
          · exact .inr ⟨token, .head _, first⟩
          · exact .inl between
          · refine (ih later).imp_right fun found => ?_
            obtain ⟨other, inside, letter⟩ := found
            exact ⟨other, .tail _ inside, letter⟩

section Text

variable {tree : Syntax} (legible : tree.Legible)

include legible

theorem Pipeline.Legible.runs_text : runs tree.text = tree.words :=
  runs_joinStrings fun word member => ⟨(legible word member).1, (legible word member).2.1⟩

theorem Pipeline.Legible.unflagged_text : '&' ∉ tree.text := by
  intro member
  rcases mem_joinStrings member with space | ⟨word, inside, letter⟩
  · exact absurd space (by decide)
  · exact (legible word inside).2.2 letter

theorem Pipeline.Legible.text_ne_nil : tree.text ≠ [] := by
  intro empty
  have words := legible.runs_text
  rw [empty, runs_nil] at words
  cases tree with
  | mk name items next => cases words

end Text

theorem segments_append_flag (left right : CString) :
    segments (left ++ '&' :: right) = segments left ++ segments right := by
  rw [segments, List.splitOn_append_cons_self, List.filter_append]
  rfl

theorem segments_of_not_mem {string : CString} (nonempty : string ≠ []) (free : '&' ∉ string) :
    segments string = [string] := by
  rw [segments, List.splitOn_eq_singleton free]
  simp [nonempty]

theorem segments_text {trees : List Syntax} (legible : ∀ tree ∈ trees, tree.Legible)
    (rest : CString) :
    segments (trees.flatMap (fun tree => tree.text ++ backgroundFlag.text) ++ rest) =
      trees.map Pipeline.text ++ segments rest := by
  induction trees with
  | nil => rfl
  | cons tree trees ih =>
      have own := legible tree (.head _)
      rw [List.flatMap_cons, List.append_assoc, List.append_assoc, backgroundFlag_single,
        List.singleton_append, segments_append_flag,
        segments_of_not_mem own.text_ne_nil own.unflagged_text, ← backgroundFlag_single,
        ih fun other member => legible other (.tail _ member)]
      rfl

theorem startsWith_flag {string : CString} :
    startsWith string backgroundFlag.text = false ↔ string.head? ≠ some '&' := by
  rw [Bool.eq_false_iff, Ne, startsWith_iff, backgroundFlag_single]
  refine not_congr ?_
  cases string with
  | nil => simp
  | cons char rest =>
      rw [List.cons_prefix_cons, List.head?_cons, Option.some_inj, eq_comm]
      exact and_iff_left (List.nil_prefix)

/-- A line written with single spaces is spelled. -/
theorem LineSyntax.spelled_text (line : LineSyntax) : line.Spelled line.text := by
  have legible := line.legible
  have backgroundLegible : ∀ tree ∈ line.background, tree.Legible :=
    fun tree member => legible tree (List.mem_append_left _ member)
  constructor
  · rw [startsWith_flag]
    have first : ∀ tree : Syntax, tree.Legible → ∀ rest,
        (tree.text ++ rest).head? ≠ some '&' := by
      intro tree own rest starts
      rw [List.head?_append_of_ne_nil _ own.text_ne_nil] at starts
      exact own.unflagged_text (List.mem_of_head? starts)
    rw [LineSyntax.text]
    cases background : line.background with
    | nil =>
        cases foreground : line.foreground with
        | none => exact absurd (by rw [background, foreground]; rfl) line.nonempty
        | some tree =>
            exact first tree (legible tree (by simp [foreground])) []
    | cons tree rest =>
        rw [List.flatMap_cons, List.append_assoc, List.append_assoc]
        exact first tree (backgroundLegible tree (by simp [background])) _
  · rw [LineSyntax.text, segments_text backgroundLegible, List.map_append, List.map_map,
      LineSyntax.trees, List.map_append]
    congr 1
    · exact List.map_congr_left fun tree member => (backgroundLegible tree member).runs_text
    · cases foreground : line.foreground with
      | none => rfl
      | some tree =>
          have own := legible tree (by simp [foreground])
          simp [segments_of_not_mem own.text_ne_nil own.unflagged_text, own.runs_text]
  · cases foreground : line.foreground with
    | none =>
        refine iff_of_true ?_ rfl
        obtain ⟨front, last, background⟩ : ∃ front last, line.background = front ++ [last] := by
          have some := line.nonempty
          rw [foreground, Option.toList_none, List.append_nil] at some
          exact ⟨_, _, (List.dropLast_append_getLast some).symm⟩
        simp [LineSyntax.text, foreground, background, backgroundFlag]
    | some tree =>
        have own := legible tree (by simp [foreground])
        refine iff_of_false (fun ends => ?_) (Option.some_ne_none _)
        rw [LineSyntax.text, foreground, Option.toList_some, List.flatMap_singleton,
          List.getLast?_append_of_ne_nil _ own.text_ne_nil] at ends
        exact own.unflagged_text (List.mem_of_getLast? ends)

/-! ## Reading -/

/-- The command has been read from a string that spells the tree: it is that of the tree
with the descriptors it has received. -/
def Command.ReadAs (outcomes : FileOutcomes) (command : Command) (tree : Syntax) : Prop :=
  ∃ segment state state' wired, wired.erase = tree ∧
    CommandRead outcomes segment state state' { command with background := false } wired

/-- How many files are opened for the trees, and how many pipes are made. -/
def opensOf (trees : List Syntax) : Nat := (trees.map (·.opens.length)).sum

def linksOf (trees : List Syntax) : Nat := (trees.map (·.links.length)).sum

section Reading

variable {outcomes : FileOutcomes}

theorem parseCommand_spelled {tree : Syntax} {segment : CString} {state : ParserState}
    (spelled : runs segment = tree.words) (placed : tree.Placed true true)
    (valid : state.kernel.Valid) (unset : state.lastParsedCommandCallSubstitution = none)
    (succeed : Succeed outcomes state tree.opens.length tree.links.length) :
    ∃ command state' wired, parseCommand outcomes segment state = (some command, state') ∧
      wired.erase = tree ∧ CommandRead outcomes segment state state' command wired := by
  obtain ⟨command, state', parsed⟩ := (parseCommand_accepts_iff valid segment).mpr
    ⟨tree, spelled.symm, placed, succeed, .inr (.inl unset)⟩
  obtain ⟨wired, read⟩ := parseCommand_some valid parsed
  refine ⟨command, state', wired, parsed, ?_, read⟩
  apply Syntax.unambiguous
  rw [Pipeline.words_erase, read.words, words_commandSeparator, spelled]

/-- The segments of a line that spell trees are accepted, one after another. -/
theorem parsedCommands_spelled (last : Int) (trees : List Syntax) :
    ∀ {segments : List CString} {index : Nat} {state : ParserState},
      segments.map runs = trees.map Pipeline.words → (∀ tree ∈ trees, tree.Placed true true) →
      state.kernel.Valid → state.lastParsedCommandCallSubstitution = none →
      Succeed outcomes state (opensOf trees) (linksOf trees) →
      (∀ rejected, ¬ Rejected outcomes state segments rejected) ∧
        ∃ commands, parsedCommands outcomes last index state segments = commands.map some ∧
          List.Forall₂ (Command.ReadAs outcomes) commands trees ∧
          commands.map (·.background) =
            (List.range' index trees.length).map
              (fun position : Nat => decide ((position : Int) ≤ last)) ∧
          (parsedSegments outcomes state segments).kernel.opens =
            state.kernel.opens ++ trees.flatMap Pipeline.opens ∧
          (parsedSegments outcomes state segments).lastParsedCommandCallSubstitution = none := by
  induction trees with
  | nil =>
      intro segments index state spelled _ _ unset _
      rw [List.map_nil, List.map_eq_nil_iff] at spelled
      subst spelled
      refine ⟨?_, [], rfl, .nil, rfl, (List.append_nil _).symm, unset⟩
      rintro rejected ⟨segment, found, _⟩
      cases found
  | cons tree trees ih =>
      intro segments index state spelled placed valid unset succeed
      cases segments with
      | nil => cases spelled
      | cons segment segments =>
          rw [List.map_cons, List.map_cons, List.cons.injEq] at spelled
          obtain ⟨command, state', wired, parsed, erased, read⟩ := parseCommand_spelled spelled.1
            (placed tree (.head _)) valid unset succeed.left
          have opened : state'.kernel.opens = state.kernel.opens ++ tree.opens := by
            rw [← erased, Pipeline.opens_erase]
            exact read.wires.opensMade
          have piped : state'.kernel.pipes = state.kernel.pipes + tree.links.length := by
            rw [← erased, Pipeline.length_links_erase]
            exact read.wires.pipes
          have unset' : state'.lastParsedCommandCallSubstitution = none := by
            rw [read.lastCallSubstitution, unset, ite_self]
          obtain ⟨accepted, commands, rest, reads, flags, opens, after⟩ := @ih segments (index + 1)
            state' spelled.2 (fun other member => placed other (.tail _ member)) read.wires.valid
            unset' (succeed.right (by rw [opened, List.length_append]) piped)
          have next : (parseCommand outcomes segment state).2 = state' := by rw [parsed]
          constructor
          · intro rejected
            cases rejected with
            | zero =>
                rw [rejected_zero, parsed]
                exact Option.some_ne_none _
            | succ rejected =>
                rw [rejected_succ, next]
                exact accepted rejected
          · refine ⟨{ command with background := decide ((index : Int) ≤ last) } :: commands, ?_,
              ?_, ?_, ?_, ?_⟩
            · rw [parsedCommands, parsed, rest]
              rfl
            · refine .cons ⟨segment, state, state', wired, erased, ?_⟩ reads
              have foreground : command.background = false := read.background
              rw [← foreground]
              exact read
            · rw [List.map_cons, flags, List.length_cons, List.range'_succ, List.map_cons]
            · change (parsedSegments outcomes (parseCommand outcomes segment state).2
                segments).kernel.opens = _
              rw [next, opens, opened, List.append_assoc, List.flatMap_cons]
            · change (parsedSegments outcomes (parseCommand outcomes segment state).2
                segments).lastParsedCommandCallSubstitution = none
              rw [next, after]

/-- The commands behind which `split_string_keep_trace` finds a flag. -/
theorem flags_of_spelled {line : LineSyntax} {string : CString} (spelled : line.Spelled string) :
    (List.range' 0 line.trees.length).map (fun position : Nat =>
      decide ((position : Int) ≤ (splitStringKeepTrace string backgroundFlag).last)) =
        line.flags := by
  have all : words backgroundFlag string = segments string := words_eq_splitOn rfl string
  have count : (segments string).length = line.trees.length := by
    have same := congrArg List.length spelled.words
    rwa [List.length_map, List.length_map] at same
  have present : words backgroundFlag string ≠ [] := by
    rw [all, Ne, ← List.length_eq_zero_iff, count, List.length_eq_zero_iff]
    exact line.nonempty
  have within : ∀ (size : Nat) (last : Int), (size : Int) - 1 ≤ last →
      (List.range' 0 size).map (fun position : Nat => decide ((position : Int) ≤ last)) =
        List.replicate size true := by
    intro size last bound
    refine List.eq_replicate_iff.mpr ⟨by simp, fun flag member => ?_⟩
    obtain ⟨position, inside, rfl⟩ := List.mem_map.mp member
    rw [List.mem_range'_1] at inside
    rw [decide_eq_true_iff]
    omega
  rw [splitStringKeepTrace_last backgroundFlag_single present, all, count, LineSyntax.flags,
    List.map_const']
  cases foreground : line.foreground with
  | none =>
      rw [if_pos (spelled.flagged.mpr foreground), LineSyntax.trees, foreground,
        Option.toList_none, List.append_nil, within _ _ (Int.le_refl _)]
      exact (List.append_nil _).symm
  | some tree =>
      have unflagged : string.getLast? ≠ some '&' := by
        rw [Ne, spelled.flagged, foreground]
        exact Option.some_ne_none _
      rw [if_neg unflagged, LineSyntax.trees, foreground, Option.toList_some,
        List.length_append, List.length_singleton, List.range'_1_concat, List.map_append,
        within _ _ (by omega)]
      simp only [List.map_cons, List.map_nil, List.append_cancel_left_eq, List.cons.injEq, and_true,
        decide_eq_false_iff_not]
      omega

/-- Every line is read back from each of its spellings. -/
theorem spelled_line_read_back (line : LineSyntax) {string : CString}
    (spelled : line.Spelled string) {parser : ParserState} (valid : parser.kernel.Valid)
    (unset : parser.lastParsedCommandCallSubstitution = none)
    (succeed : Succeed outcomes parser (opensOf line.trees) (linksOf line.trees))
    (lastExitCode : Int) :
    let read := parseReadLine outcomes string parser lastExitCode
    ∃ commands, read.commands = some (commands.map some) ∧
      List.Forall₂ (Command.ReadAs outcomes) commands line.trees ∧
      commands.map (·.background) = line.flags ∧ read.lastExitCode = lastExitCode ∧
      read.parser.kernel.opens = parser.kernel.opens ++ line.trees.flatMap Pipeline.opens ∧
      read.parser.lastParsedCommandCallSubstitution = none := by
  intro read
  have placed : ∀ tree ∈ line.trees, tree.Placed true true := line.placed
  obtain ⟨accepted, commands, listed, reads, flags, opens, after⟩ :=
    @parsedCommands_spelled outcomes (splitStringKeepTrace string backgroundFlag).last line.trees
      (segments string) 0 parser spelled.words placed valid unset succeed
  have present : segments string ≠ [] := by
    intro empty
    have none := spelled.words
    rw [empty, List.map_nil, eq_comm, List.map_eq_nil_iff] at none
    exact line.nonempty none
  cases returned : read.commands with
  | none =>
      rcases parseReadLine_none_iff.mp returned with flag | empty | ⟨index, _, bad⟩ | ⟨_, bad⟩
      · rw [spelled.unflagged] at flag
        cases flag
      · exact absurd empty present
      · exact absurd bad (accepted index)
      · exact absurd bad (accepted 0)
  | some stored =>
      obtain ⟨_, _, _, count, shape, _, whole⟩ := parseReadLine_commands returned
      have size : (commands.map some).length = (segments string).length := by
        rw [← listed, parsedCommands_length]
      rw [whole (accepted _), listed, ← size, List.take_length] at shape
      refine ⟨commands, by rw [shape], reads, flags.trans (flags_of_spelled spelled),
        parseReadLine_lastExitCode accepted, ?_, ?_⟩
      · rw [parseReadLine_parsed returned, opens]
      · rw [parseReadLine_parsed returned, after]

/-- A string spells one line at most. -/
theorem LineSyntax.Spelled.unique {line other : LineSyntax} {string : CString}
    (spelled : line.Spelled string) (spelled' : other.Spelled string) :
    other.background = line.background ∧ other.foreground = line.foreground := by
  have injective : Function.Injective fun tree : Syntax => tree.words :=
    fun _ _ => Syntax.unambiguous
  have trees : other.trees = line.trees :=
    List.map_injective_iff.mpr injective (spelled'.words.symm.trans spelled.words)
  have ending : other.foreground = none ↔ line.foreground = none :=
    spelled'.flagged.symm.trans spelled.flagged
  unfold LineSyntax.trees at trees
  cases foreground : line.foreground with
  | none =>
      rw [foreground, ending.mpr foreground, Option.toList_none, List.append_nil,
        List.append_nil] at trees
      exact ⟨trees, ending.mpr foreground⟩
  | some tree =>
      cases foreground' : other.foreground with
      | none =>
          rw [ending.mp foreground'] at foreground
          cases foreground
      | some tree' =>
          rw [foreground, foreground', Option.toList_some, Option.toList_some] at trees
          obtain ⟨background, last⟩ := List.append_inj' trees rfl
          exact ⟨background, congrArg some (List.cons.inj last).1⟩

end Reading

/-- A line is spelled by its text. It is the only line that a spelling of it spells, and it
is read back from there, with all its commands and flags: the files of its redirections are
opened in their order, and the exit code stays. -/
theorem line_reads_back {outcomes : FileOutcomes} (line : LineSyntax) {parser : ParserState}
    (valid : parser.kernel.Valid) (unset : parser.lastParsedCommandCallSubstitution = none)
    (succeed : Succeed outcomes parser (opensOf line.trees) (linksOf line.trees)) :
    line.Spelled line.text ∧ ∀ string, line.Spelled string →
      (∀ other : LineSyntax, other.Spelled string →
        other.background = line.background ∧ other.foreground = line.foreground) ∧
      ∀ lastExitCode, let read := parseReadLine outcomes string parser lastExitCode
        ∃ commands, read.commands = some (commands.map some) ∧
          List.Forall₂ (Command.ReadAs outcomes) commands line.trees ∧
          commands.map (·.background) = line.flags ∧ read.lastExitCode = lastExitCode ∧
          read.parser.kernel.opens = parser.kernel.opens ++ line.trees.flatMap Pipeline.opens ∧
          read.parser.lastParsedCommandCallSubstitution = none :=
  ⟨line.spelled_text, fun _ spelled => ⟨fun _ => spelled.unique,
    spelled_line_read_back line spelled valid unset succeed⟩⟩

/-- The line `sort < a | uniq & wc`. -/
def sortedLine : LineSyntax where
  background := [.mk ⟨"sort".toList, by decide⟩
    (.redirection .input ⟨"a".toList, by decide⟩ () .nil)
    (.pipe () (.mk ⟨"uniq".toList, by decide⟩ .nil .last))]
  foreground := some (.mk ⟨"wc".toList, by decide⟩ .nil .last)
  nonempty := by simp
  legible := by
    simp [Pipeline.Legible, Pipeline.words, Items.words, Next.words, Redirection.text, pipeSymbol]
  placed := by
    simp [Pipeline.Placed, Items.Placed, Next.Placed, Redirection.stream]

theorem sorted_line_reads_back :
    ∃ commands : List Command, (parseReadLine .allSucceed "sort < a | uniq&wc".toList
        startedShell 1).commands = some (commands.map some) ∧
      commands.map (·.background) = [true, false] := by
  have text : sortedLine.text = "sort < a | uniq&wc".toList := by decide
  obtain ⟨spelled, back⟩ := @line_reads_back .allSucceed sortedLine startedShell
    valid_startedShell rfl ⟨fun _ _ => rfl, fun _ _ => rfl⟩
  rw [text] at spelled
  obtain ⟨commands, read, _, flags, _⟩ := (back _ spelled).2 1
  exact ⟨commands, read, flags⟩

end Jsh
