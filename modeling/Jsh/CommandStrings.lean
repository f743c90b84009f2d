import Jsh.Acceptance
import Jsh.Words

/-!
# Command strings

`remove_extra_pipes` looks for the end of a stage by counting characters, while the
parser reads words. Where the two agree, the command string of a call has the words of
its stage.
-/

set_option autoImplicit false

namespace Jsh

/-! ## Where `remove_extra_pipes` cuts -/

/-- How many more brackets a string opens than it closes. -/
def bracketDepth (string : CString) : Int := (string.count '(' : Int) - string.count ')'

@[simp] theorem bracketDepth_nil : bracketDepth [] = 0 := rfl

theorem bracketDepth_cons (char : Char) (string : CString) :
    bracketDepth (char :: string) = bracketDepth [char] + bracketDepth string := by
  simp only [bracketDepth, List.count_cons, List.count_nil]
  omega

/-- From the given depth on, no bar stands at depth zero. -/
def Uncut (depth : Int) (string : CString) : Prop :=
  ∀ before after, string = before ++ '|' :: after → depth + bracketDepth before ≠ 0

theorem uncut_cons {depth : Int} {char : Char} {string : CString} :
    Uncut depth (char :: string) ↔
      (char = '|' → depth ≠ 0) ∧ Uncut (depth + bracketDepth [char]) string := by
  constructor
  · intro uncut
    refine ⟨fun bar => ?_, fun before after split => ?_⟩
    · have here := uncut [] string (by rw [bar]; rfl)
      simpa using here
    · have later := uncut (char :: before) after (by rw [split]; rfl)
      rw [bracketDepth_cons] at later
      omega
  · rintro ⟨here, later⟩ before after split
    cases before with
    | nil =>
        cases split
        simpa using here rfl
    | cons first before =>
        cases split
        have deeper := later before after rfl
        rw [bracketDepth_cons]
        omega

/-- The scan passes over a string without a bar at depth zero, and stops at the first
such bar otherwise. -/
theorem removeExtraPipes_append (depth : Int) (string rest : CString) :
    (Uncut depth string →
        removeExtraPipes depth (string ++ rest) =
          string ++ removeExtraPipes (depth + bracketDepth string) rest) ∧
      (¬ Uncut depth string →
        ∃ after, string = removeExtraPipes depth (string ++ rest) ++ '|' :: after) := by
  induction string generalizing depth with
  | nil =>
      refine ⟨fun _ => by simp, fun cut => absurd (fun before after split => ?_) cut⟩
      exact absurd split.symm (by simp)
  | cons char string ih =>
      rw [uncut_cons, bracketDepth_cons char string]
      obtain ⟨passes, stops⟩ := ih (depth + bracketDepth [char])
      by_cases bar : char = '|' ∧ depth = 0
      · have atBar : removeExtraPipes depth (char :: string ++ rest) = [] := by
          simp [removeExtraPipes, bar]
        refine ⟨fun uncut => absurd bar.2 (uncut.1 bar.1), fun _ => ⟨string, ?_⟩⟩
        rw [atBar, bar.1]
        rfl
      · have next : removeExtraPipes depth (char :: string ++ rest) =
            char :: removeExtraPipes (depth + bracketDepth [char]) (string ++ rest) := by
          by_cases opening : char = '('
          · simp [removeExtraPipes, opening, bracketDepth]
          · by_cases closing : char = ')'
            · simp [removeExtraPipes, closing, bracketDepth, Int.sub_eq_add_neg]
            · simp [removeExtraPipes, opening, closing, bar, bracketDepth]
        rw [next]
        refine ⟨fun uncut => ?_, fun cut => ?_⟩
        · rw [passes uncut.2, Int.add_assoc]
          rfl
        · have here : char = '|' → depth ≠ 0 := fun same zero => bar ⟨same, zero⟩
          obtain ⟨after, split⟩ := stops fun uncut => cut ⟨here, uncut⟩
          exact ⟨after, by rw [List.cons_append, ← split]⟩

/-- Spaces change neither the depth nor the bars. -/
theorem bracketDepth_letters (string : CString) :
    bracketDepth (string.filter (· ≠ ' ')) = bracketDepth string := by
  simp only [bracketDepth]
  rw [List.count_filter (by decide), List.count_filter (by decide)]

theorem uncut_letters {depth : Int} {string : CString} :
    Uncut depth (string.filter (· ≠ ' ')) ↔ Uncut depth string := by
  constructor
  · intro uncut before after split
    have letters := uncut (before.filter (· ≠ ' ')) (after.filter (· ≠ ' ')) (by simp [split])
    rwa [bracketDepth_letters] at letters
  · intro uncut before after split
    obtain ⟨left, right, rfl, rfl, rest⟩ := List.filter_eq_append_iff.mp split
    obtain ⟨spaces, tail, rfl, blank, _, _⟩ := List.filter_eq_cons_iff.mp rest
    have here := uncut (left ++ spaces) tail (by simp)
    have noLetter : spaces.filter (· ≠ ' ') = [] := List.filter_eq_nil_iff.mpr blank
    rw [← bracketDepth_letters, List.filter_append, noLetter, List.append_nil] at here
    exact here

/-! ## Stages -/

/-- A stage of a pipeline: its words, and whether a pipe symbol follows them. -/
structure PipelineStage where
  words : List CString
  piped : Bool
  deriving DecidableEq, Repr

/-- No bar of the stage stands behind as many closing as opening brackets, and a pipe
symbol behind the stage does. -/
def PipelineStage.Cuttable (stage : PipelineStage) : Prop :=
  (∀ before after, stage.words.flatten = before ++ '|' :: after →
      before.count '(' ≠ before.count ')') ∧
    (stage.piped = true → stage.words.flatten.count '(' = stage.words.flatten.count ')')

theorem PipelineStage.cuttable_iff {stage : PipelineStage} :
    stage.Cuttable ↔ Uncut 0 stage.words.flatten ∧
      (stage.piped = true → bracketDepth stage.words.flatten = 0) := by
  have depth : ∀ string : CString, bracketDepth string = 0 ↔ string.count '(' = string.count ')' := by
    intro string
    simp only [bracketDepth]
    omega
  simp only [Cuttable, Uncut, Int.zero_add, ne_eq, depth]

/-- The command string of a stage has the stage's words exactly when the scan finds the
end of the stage. -/
theorem runs_removeExtraPipes_iff {string : CString} {stage : PipelineStage} {others : List CString}
    (split : runs string = stage.words ++ others)
    (end_ : if stage.piped then ∃ later, others = pipeSymbol :: later else others = []) :
    runs (removeExtraPipes 0 string) = stage.words ↔ stage.Cuttable := by
  obtain ⟨left, right, rfl, own, last, next⟩ := runs_split split
  have letters : stage.words.flatten = left.filter (· ≠ ' ') := by rw [← own, flatten_runs]
  obtain ⟨passes, stops⟩ := removeExtraPipes_append 0 left right
  rw [PipelineStage.cuttable_iff, letters, uncut_letters, bracketDepth_letters]
  have counted : ∀ result, runs result = stage.words → result.count '|' = left.count '|' := by
    intro result same
    have equal := congrArg List.flatten (same.trans own.symm)
    rw [flatten_runs, flatten_runs] at equal
    have bars := congrArg (List.count '|') equal
    rwa [List.count_filter (by decide), List.count_filter (by decide)] at bars
  by_cases uncut : Uncut 0 left
  · rw [passes uncut, Int.zero_add]
    cases piped : stage.piped with
    | false =>
        rw [piped] at end_
        rw [last end_]
        simp [removeExtraPipes, own, uncut]
    | true =>
        simp only [piped, if_true] at end_
        obtain ⟨later, following⟩ := end_
        obtain ⟨tail, rfl⟩ := next pipeSymbol later following
        by_cases level : bracketDepth left = 0
        · simp [removeExtraPipes, pipeSymbol, level, own, uncut]
        · refine iff_of_false (fun same => ?_) fun cuttable => level (cuttable.2 rfl)
          have bars := counted _ same
          simp [removeExtraPipes, pipeSymbol, level] at bars
  · obtain ⟨after, shape⟩ := stops uncut
    refine iff_of_false (fun same => ?_) fun cuttable => uncut cuttable.1
    have bars := counted _ same
    have total := congrArg (List.count '|') shape
    rw [List.count_append, List.count_cons_self] at total
    omega

section Stages

variable {labels : Labels}

mutual

/-- The stages of a tree in the order in which the parser builds their calls. -/
def Pipeline.stages : Pipeline labels → List PipelineStage
  | .mk name items next =>
      items.stages ++ next.stages ++ [{ words := name.text :: items.words, piped := !next.isLast }]

def Items.stages : Items labels → List PipelineStage
  | .nil => []
  | .word _ rest => rest.stages
  | .redirection _ _ _ rest => rest.stages
  | .substitution _ body rest => body.stages ++ rest.stages

def Next.stages : Next labels → List PipelineStage
  | .last => []
  | .pipe _ rest => rest.stages

end

/-- The stages in the order of the calls of a command: that of the last stage of the
pipeline comes first. -/
def Pipeline.listedStages (tree : Pipeline labels) : List PipelineStage :=
  tree.stages[tree.lastPosition]?.toList ++ tree.stages.eraseIdx tree.lastPosition

mutual

@[simp] theorem Pipeline.stages_erase : ∀ tree : Pipeline labels, tree.erase.stages = tree.stages
  | .mk name items next => by
      simp only [Pipeline.erase, Pipeline.stages, Items.stages_erase items,
        Next.stages_erase next, Items.words_erase, Next.isLast_erase]

@[simp] theorem Items.stages_erase : ∀ items : Items labels, items.erase.stages = items.stages
  | .nil => rfl
  | .word argument rest => by simp only [Items.erase, Items.stages, Items.stages_erase rest]
  | .redirection symbol file label rest => by
      simp only [Items.erase, Items.stages, Items.stages_erase rest]
  | .substitution link body rest => by
      simp only [Items.erase, Items.stages, Pipeline.stages_erase body, Items.stages_erase rest]

@[simp] theorem Next.stages_erase : ∀ next : Next labels, next.erase.stages = next.stages
  | .last => rfl
  | .pipe link rest => by simp only [Next.erase, Next.stages, Pipeline.stages_erase rest]

end

end Stages

/-- The call is named after the stage, and its command string has the stage's words when
the scan finds the end of the stage. -/
def CommandCall.Shows (call : CommandCall) (stage : PipelineStage) : Prop :=
  stage.words.head? = some call.name ∧
    (runs call.commandString = stage.words ↔ stage.Cuttable)

/-- Tokens without spaces, as a line is split into. -/
def Clean (tokens : List CString) : Prop := ∀ token ∈ tokens, token ≠ [] ∧ ' ' ∉ token

theorem Clean.of_runs (string : CString) : Clean (runs string) := by
  rw [← words_commandSeparator]
  exact words_clean commandSeparator_single string

theorem runs_joinStrings {tokens : List CString} (clean : Clean tokens) :
    runs (joinStrings tokens [' ']) = tokens := by
  rw [← words_commandSeparator]
  exact words_joined clean

theorem Clean.left {before after : List CString} (clean : Clean (before ++ after)) :
    Clean before := fun token member => clean token (List.mem_append_left _ member)

theorem Clean.right {before after : List CString} (clean : Clean (before ++ after)) :
    Clean after := fun token member => clean token (List.mem_append_right _ member)

theorem Clean.tail {token : CString} {tokens : List CString} (clean : Clean (token :: tokens)) :
    Clean tokens := fun other member => clean other (.tail _ member)

mutual

theorem Pipeline.calls_show (commandString : CString) (input output : Option Link) :
    ∀ tree : Pipeline Labels.wired, runs commandString = tree.words →
      List.Forall₂ CommandCall.Shows (tree.calls commandString input output) tree.stages
  | .mk name items next, split => by
      have clean := Clean.of_runs commandString
      rw [split] at clean
      simp only [Pipeline.words] at clean split
      simp only [Pipeline.calls, Pipeline.stages]
      refine List.rel_append (List.rel_append (Items.calls_show items clean.left.tail)
        (Next.calls_show output next clean.right)) (.cons ⟨rfl, ?_⟩ .nil)
      rw [← runs_trimSpaces] at split
      refine runs_removeExtraPipes_iff split ?_
      cases next with
      | last => rfl
      | pipe link rest => exact ⟨rest.words, rfl⟩

theorem Items.calls_show : ∀ items : Items Labels.wired, Clean items.words →
    List.Forall₂ CommandCall.Shows items.calls items.stages
  | .nil, _ => .nil
  | .word _ rest, clean => Items.calls_show rest clean.tail
  | .redirection _ _ _ rest, clean => Items.calls_show rest clean.tail.tail
  | .substitution link body rest, clean => by
      have inner : Clean body.words := clean.left.tail
      have outer : Clean rest.words := clean.right.tail
      simp only [Items.calls, Items.stages]
      exact List.rel_append (Pipeline.calls_show _ none (some link) body (runs_joinStrings inner))
        (Items.calls_show rest outer)

theorem Next.calls_show (output : Option Link) : ∀ next : Next Labels.wired, Clean next.words →
    List.Forall₂ CommandCall.Shows (next.calls output) next.stages
  | .last, _ => .nil
  | .pipe link rest, clean =>
      Pipeline.calls_show _ (some link) output rest (runs_joinStrings clean.tail)

end

theorem forall₂_eraseIdx {α β : Type} {related : α → β → Prop} {left : List α} {right : List β}
    (all : List.Forall₂ related left right) (position : Nat) :
    List.Forall₂ related (left.eraseIdx position) (right.eraseIdx position) := by
  induction all generalizing position with
  | nil => exact .nil
  | cons first others ih =>
      cases position with
      | zero => exact others
      | succ position => exact .cons first (ih position)

theorem forall₂_getElem? {α β : Type} {related : α → β → Prop} {left : List α} {right : List β}
    (all : List.Forall₂ related left right) (position : Nat) :
    List.Forall₂ related left[position]?.toList right[position]?.toList := by
  induction all generalizing position with
  | nil => exact .nil
  | cons first _ ih =>
      cases position with
      | zero => exact .cons first .nil
      | succ position => simpa using ih position

/-- The command strings of an accepted command, each beside its stage of the syntax
tree. -/
theorem commandStrings_of_accepted_command {outcomes : FileOutcomes} {commandString : CString}
    {state state' : ParserState} {command : Command} (valid : state.kernel.Valid)
    (accepted : parseCommand outcomes commandString state = (some command, state')) :
    ∃ tree : Syntax, tree.words = runs commandString ∧ tree.Placed true true ∧
      (∀ other : Syntax, other.words = runs commandString → other = tree) ∧
      List.Forall₂ CommandCall.Shows command.commandCalls tree.listedStages := by
  obtain ⟨tree, read⟩ := parseCommand_some valid accepted
  have split : runs commandString = tree.words := by rw [read.words, words_commandSeparator]
  have same : tree.erase.words = runs commandString := by rw [Pipeline.words_erase, split]
  refine ⟨tree.erase, same, (Pipeline.placed_erase tree).mpr read.placed,
    fun other reads => Syntax.unambiguous (reads.trans same.symm), ?_⟩
  have shown := Pipeline.calls_show commandString none none tree split
  have first := forall₂_getElem? shown tree.lastPosition
  rw [tree.calls_lastPosition] at first
  rw [read.calls, Pipeline.listedStages, Pipeline.stages_erase, Pipeline.lastPosition_erase]
  exact List.rel_append first (forall₂_eraseIdx shown tree.lastPosition)

theorem commandStrings_of_substitutions :
    ∃ command state', parseCommand .allSucceed "a <( b | c ) | d".toList startedShell =
        (some command, state') ∧
      ∃ tree : Syntax, tree.words = runs "a <( b | c ) | d".toList ∧
        List.Forall₂ CommandCall.Shows command.commandCalls tree.listedStages := by
  obtain ⟨command, state', accepted⟩ := exists_of_isSome (show (parseCommand .allSucceed
    "a <( b | c ) | d".toList startedShell).1.isSome = true by decide +kernel)
  obtain ⟨tree, reads, _, _, shown⟩ :=
    commandStrings_of_accepted_command fresh_startedShell.valid accepted
  exact ⟨command, state', accepted, tree, reads, shown⟩

/-- The bar of a truncating redirection is taken for a pipe symbol. -/
theorem truncating_redirection_cut :
    ∃ command state', parseCommand .allSucceed "echo a >| f".toList startedShell =
        (some command, state') ∧
      ∃ tree : Syntax, tree.words = runs "echo a >| f".toList ∧ tree.Placed true true ∧
        ¬ List.Forall₂
          (fun (call : CommandCall) (stage : PipelineStage) => runs call.commandString = stage.words)
          command.commandCalls tree.listedStages := by
  obtain ⟨command, state', accepted⟩ := exists_of_isSome (show (parseCommand .allSucceed
    "echo a >| f".toList startedShell).1.isSome = true by decide +kernel)
  have strings : (parseCommand .allSucceed "echo a >| f".toList startedShell).1.map
      (fun command => command.commandCalls.map fun call => runs call.commandString) =
        some [["echo".toList, "a".toList, ">".toList]] := by decide +kernel
  rw [accepted] at strings
  refine ⟨command, state', accepted, .mk ⟨"echo".toList, by decide⟩ (.word ⟨"a".toList, by decide⟩
    (.redirection .outputTruncate ⟨"f".toList, by decide⟩ () .nil)) .last, by decide, ?_, ?_⟩
  · simp [Pipeline.Placed, Items.Placed, Next.Placed, Next.isLast]
  · intro same
    have shown : List.Forall₂
          (fun (call : CommandCall) (stage : PipelineStage) => runs call.commandString = stage.words)
        command.commandCalls [{ words := runs "echo a >| f".toList, piped := false }] := same
    obtain ⟨call, rest, first, _, shape⟩ := List.forall₂_cons_right_iff.mp shown
    simp only [shape, Option.map_some, List.map_cons, Option.some.injEq, List.cons.injEq] at strings
    rw [strings.1] at first
    exact absurd first (by decide)

end Jsh
