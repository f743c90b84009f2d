import Jsh.CommandProperties

/-!
# Which strings are accepted

Every syntax tree whose redirections stand where they may and can be opened is
accepted. Together with the specification of the parser this characterises the
accepted strings.
-/

set_option autoImplicit false

namespace Jsh

/-- The next calls of `open` and `pipe` succeed. -/
structure Succeed (outcomes : FileOutcomes) (state : ParserState) (opens pipes : Nat) : Prop where
  opens : ∀ index < opens, outcomes.openError (state.kernel.opens.length + index) = none
  pipes : ∀ index < pipes, outcomes.pipeSucceeds (state.kernel.pipes + index) = true

section Succeed

variable {outcomes : FileOutcomes} {state state' : ParserState} {opens opens' pipes pipes' : Nat}

theorem Succeed.left (succeed : Succeed outcomes state (opens + opens') (pipes + pipes')) :
    Succeed outcomes state opens pipes where
  opens index bound := succeed.opens index (Nat.lt_of_lt_of_le bound (Nat.le_add_right _ _))
  pipes index bound := succeed.pipes index (Nat.lt_of_lt_of_le bound (Nat.le_add_right _ _))

theorem Succeed.right (succeed : Succeed outcomes state (opens + opens') (pipes + pipes'))
    (opened : state'.kernel.opens.length = state.kernel.opens.length + opens)
    (piped : state'.kernel.pipes = state.kernel.pipes + pipes) :
    Succeed outcomes state' opens' pipes' where
  opens index bound := by
    rw [opened, Nat.add_assoc]
    exact succeed.opens _ (Nat.add_lt_add_left bound _)
  pipes index bound := by
    rw [piped, Nat.add_assoc]
    exact succeed.pipes _ (Nat.add_lt_add_left bound _)

/-- A pipe that is to succeed is made. -/
theorem Succeed.pipe (succeed : Succeed outcomes state opens (1 + pipes)) :
    ∃ fd kernel, state.kernel.pipe outcomes = (some fd, kernel) := by
  have succeeds := succeed.pipes 0 (by omega)
  simp only [Kernel.pipe, Nat.add_zero] at succeeds ⊢
  simp only [succeeds, if_true]
  exact ⟨_, _, rfl⟩

end Succeed

/-- Whether the token loop has set the streams a stage at this place may not redirect. -/
structure Unredirected (input output : Bool) (held : Stream → Option Descriptor) : Prop where
  stdin : input = false → held .stdin = none
  stdout : output = false → held .stdout = none

/-- The token loop accepts `rest` once it has got to it, whatever the state, as long as
the opens and pipes of `rest` succeed and the second global is cleared if it blocks. -/
def Accepts (outcomes : FileOutcomes) (context : CallContext) (output : Bool)
    (rest : List CString) (opens pipes : Nat) (blocked : Prop) : Prop :=
  ∀ builder held before state, Ready context.insideSubstitution state →
    Holds builder.fds held state.kernel → before ≠ [] →
    Unredirected (!context.insidePipeline) output held →
    Succeed outcomes state opens pipes →
    (blocked → state.lastParsedCommandCallSubstitution = none) →
    ∃ ref state', parseTokens outcomes context builder before rest state = (some ref, state')

/-- The opens and pipes of a part that was read have succeeded. -/
theorem Wires.succeed {outcomes : FileOutcomes} {state state' : ParserState} {links : List Link}
    {opens : List (CString × OpenMode)} {labels closed opened : List Descriptor}
    (wires : Wires outcomes state state' links opens labels closed opened) :
    Succeed outcomes state opens.length links.length where
  opens := wires.opensSucceed
  pipes index bound := by
    have serial : (links.map (·.serial))[index]? = some (state.kernel.pipes + index) := by
      rw [wires.serials, List.getElem?_range' bound]
      simp
    rw [List.getElem?_map, List.getElem?_eq_getElem bound, Option.map_some,
      Option.some.injEq] at serial
    rw [← serial]
    exact wires.pipesSucceed _ (List.getElem_mem bound)

theorem redirectStream_of_success {outcomes : FileOutcomes} {state : ParserState}
    (succeeds : outcomes.openError state.kernel.opens.length = none) (stream : Stream)
    (mode : OpenMode) (complaint : CString → Option CString) (fds : Fds) (filename : CString) :
    ∃ fds' state', redirectStream outcomes stream mode complaint fds filename state =
      (some fds', state') := by
  simp only [redirectStream, Kernel.openFile, succeeds]
  exact ⟨_, _, rfl⟩

theorem Pipeline.words_head_ordinary {labels : Labels} (tree : Pipeline labels)
    (rest : List CString) :
    tree.words ++ rest ≠ [] ∧
      containsString redirectionCaretSymbols ((tree.words ++ rest).headD []) = false := by
  cases tree with
  | mk name items next =>
      rw [Pipeline.words_mk]
      exact ⟨by simp, name.ordinary⟩

section Steps

variable {outcomes : FileOutcomes} {context : CallContext} {output : Bool}
  {tail : List CString} {opens pipes : Nat} {blocked : Prop}

theorem accepts_word (argument : Word)
    (ih : Accepts outcomes context output tail opens pipes blocked) :
    Accepts outcomes context output (argument.text :: tail) opens pipes blocked := by
  intro builder held before state ready holds _ unredirected succeed cleared
  rw [parseTokens_word argument.ordinary]
  exact ih builder held _ state ready holds (by simp) unredirected succeed cleared

theorem accepts_redirection (symbol : Redirection) (file : Word)
    (input : symbol.stream = .stdin → (!context.insidePipeline) = true)
    (placed : symbol.stream = .stdout → output = true)
    (ih : Accepts outcomes context output tail opens pipes blocked) :
    Accepts outcomes context output (symbol.text :: file.text :: tail) (1 + opens) pipes
      blocked := by
  intro builder held before state ready holds started unredirected succeed cleared
  obtain ⟨fds, state₁, redirected⟩ := redirectStream_of_success (succeed.opens 0 (by omega))
    symbol.stream symbol.mode (symbol.complaint file.text) builder.fds file.text
  obtain ⟨opened, _, wires, holds', same⟩ := redirectStream_some ready.valid holds redirected
  have inside : ¬ (file.text :: tail = [] ∨ before = []) := by simp [started]
  rw [parseTokens_redirection_text inside file.ordinary, List.headD_cons,
    parseRedirections_eq, redirected]
  refine ih { builder with fds } (redirect held symbol.stream opened) (before ++ [none, none])
    state₁ ⟨wires.valid, ?_, ?_⟩ holds' (by simp) ⟨?_, ?_⟩ (Succeed.right (Nat.zero_add pipes ▸ succeed) ?_ ?_) ?_
  · rw [same]
    exact ready.lastCall
  · rw [same]
    exact ready.lastCallSubstitution
  · intro none
    have other : Stream.stdin ≠ symbol.stream := fun is => by simp [input is.symm] at none
    simpa [redirect, other] using unredirected.stdin none
  · intro none
    have other : Stream.stdout ≠ symbol.stream := fun is => by simp [placed is.symm] at none
    simpa [redirect, other] using unredirected.stdout none
  · rw [wires.opensMade]
    simp
  · rw [wires.pipes]
    rfl
  · rw [same]
    exact cleared

/-- A substitution whose pipeline is accepted. -/
theorem parseCommandSubstitution_of_accepted {builder : CommandCallBuilder} {state : ParserState}
    {body : Syntax} (valid : state.kernel.Valid) (noLast : state.lastParsedCommandCall = none)
    (placed : body.Placed true false) (clean : ∀ token ∈ body.words, token ≠ [] ∧ ' ' ∉ token)
    (accepted : ∀ state, Ready true state →
      Succeed outcomes state body.opens.length body.links.length →
      ∃ ref state', parseCommandCall outcomes (joinStrings body.words [' ']) true false state =
        (some ref, state'))
    (succeed : Succeed outcomes state body.opens.length (1 + body.links.length)) :
    ∃ builder' path position state', parseCommandSubstitution outcomes builder
      (body.words ++ commandSubstitutionEnd :: tail) state =
        (some (builder', path, position), state') := by
  have ended := body.substitutionEnd_body tail
  obtain ⟨fd, kernel, created⟩ := succeed.pipe
  have valid' := valid.pipe created
  have ready : Ready true (state.substituting kernel fd) := ⟨valid', noLast, fun _ => rfl⟩
  have succeed' : Succeed outcomes (state.substituting kernel fd) body.opens.length
      body.links.length := by
    obtain ⟨_, _, _, rfl⟩ := Kernel.pipe_some created
    exact Succeed.right (Nat.zero_add body.opens.length ▸ succeed) rfl rfl
  obtain ⟨ref, state₁, called⟩ := accepted _ ready succeed'
  obtain ⟨tree, read⟩ := parseCommandCall_read ready called
  have same : tree.erase = body := by
    refine Syntax.unambiguous ?_
    rw [Pipeline.words_erase, read.words, words_joined clean]
  have narrow : tree.Placed true false := by
    rw [← Pipeline.placed_erase, same]
    exact placed
  have lastCall := read.globals.lastCallSubstitution
  have kept := Pipeline.lastCall_stdout (joinStrings body.words [' ']) none tree narrow
  rw [← read.call_last] at kept
  rw [parseCommandSubstitution_parsed ended created, List.take_left, called]
  simp only [if_true] at lastCall
  simp only [concludeSubstitution, lastCall, kept, ne_eq, not_true, if_false]
  exact ⟨_, _, _, _, rfl⟩

theorem accepts_substitution {body : Syntax} (placed : body.Placed true false)
    (clean : ∀ token ∈ body.words ++ commandSubstitutionEnd :: tail, token ≠ [] ∧ ' ' ∉ token)
    (accepted : ∀ state, Ready true state →
      Succeed outcomes state body.opens.length body.links.length →
      ∃ ref state', parseCommandCall outcomes (joinStrings body.words [' ']) true false state =
        (some ref, state'))
    (ih : Accepts outcomes context output tail opens pipes blocked) :
    Accepts outcomes context output
      (commandSubstitutionStart :: (body.words ++ commandSubstitutionEnd :: tail))
      (body.opens.length + opens) (1 + body.links.length + pipes) False := by
  intro builder held before state ready holds started unredirected succeed _
  obtain ⟨nonempty, ordinary⟩ := body.words_head_ordinary (commandSubstitutionEnd :: tail)
  obtain ⟨builder', path, position, state₁, substituted⟩ :=
    parseCommandSubstitution_of_accepted ready.valid ready.lastCall placed
      (fun token member => clean token (List.mem_append_left _ member)) accepted succeed.left
  obtain ⟨link, tree, read⟩ := (specifications outcomes).2.2 builder _ state _ _ _ _ ready.valid
    ready.lastCall clean substituted
  obtain ⟨same, after⟩ := Pipeline.words_injective body tree.erase
    (.inr ⟨tail, rfl⟩) (.inr ⟨_, rfl⟩) (by rw [Pipeline.words_erase]; exact read.split)
  have inside : ¬ (body.words ++ commandSubstitutionEnd :: tail = [] ∨ before = []) := by
    simp [started]
  rw [parseTokens_substitution inside ordinary, substituted]
  have rest : (body.words ++ commandSubstitutionEnd :: tail).drop (position + 1) = tail :=
    (List.cons.inj after).2.symm
  simp only [rest]
  refine ih builder' held _ state₁
    ⟨read.wires.valid, read.lastCall, fun _ => read.lastCallSubstitution⟩ ?_ (by simp)
    unredirected (succeed.right ?_ ?_) fun _ => read.lastCallSubstitution
  · rw [read.builder]
    refine holds.mono fun descriptor => ?_
    have count := read.wires.descriptors descriptor
    simp only [List.count_nil] at count
    omega
  · rw [read.wires.opensMade, same]
    simp
  · rw [read.wires.pipes, same, List.length_cons, Nat.add_comm tree.links.length]
    exact congrArg (fun count => state.kernel.pipes + (1 + count))
      (Pipeline.length_links_erase tree).symm

/-- The end of a stage's tokens. -/
theorem accepts_nil : Accepts outcomes context output [] 0 0 blocked := by
  intro builder held before state ready holds _ unredirected _ _
  rw [parseTokens_nil, finishCommandCall_of_finishes ⟨?_, fun _ => .inl ready.lastCall⟩]
  · exact ⟨_, _, rfl⟩
  · intro inside
    exact (holds.free_iff .stdin).mpr (unredirected.stdin (by simp [inside]))

/-- A pipe symbol before a pipeline that is accepted. -/
theorem accepts_pipe {rest : Syntax}
    (clean : ∀ token ∈ rest.words, token ≠ [] ∧ ' ' ∉ token)
    (accepted : ∀ state, Ready context.insideSubstitution state →
      Succeed outcomes state rest.opens.length rest.links.length →
      Unblocked context.insideSubstitution true rest.words rest.pipes state →
      ∃ ref state', parseCommandCall outcomes (joinStrings rest.words [' '])
        context.insideSubstitution true state = (some ref, state')) :
    Accepts outcomes context false (pipeSymbol :: rest.words) rest.opens.length
      (rest.links.length + 1)
      (¬ (context.insideSubstitution = true ∨ commandSubstitutionStart ∈ rest.words ∨
        rest.pipes + 1 + context.insidePipeline.toNat ≤ 1)) := by
  intro builder held before state ready holds started unredirected succeed cleared
  obtain ⟨nonempty, ordinary⟩ := rest.words_head_ordinary []
  rw [List.append_nil] at nonempty ordinary
  have inside : ¬ (rest.words = [] ∨ before = []) := by simp [started, nonempty]
  have free : builder.fds.stdout = uninitializedFd :=
    (holds.free_iff .stdout).mpr (unredirected.stdout rfl)
  have unblocked : Unblocked context.insideSubstitution true rest.words rest.pipes state := by
    by_cases passes : context.insideSubstitution = true ∨ commandSubstitutionStart ∈ rest.words ∨
        rest.pipes + 1 + context.insidePipeline.toNat ≤ 1
    · rcases passes with substitution | start | short
      · exact .inl substitution
      · exact .inr (.inr (.inl start))
      · refine .inr (.inr (.inr ?_))
        simp only [Bool.toNat_true]
        omega
    · exact .inr (.inl (cleared passes))
  obtain ⟨pipped, state₁, called⟩ := accepted state ready
    (Succeed.left (Nat.add_zero rest.opens.length ▸ succeed)) unblocked
  obtain ⟨tree, read⟩ := parseCommandCall_read ready called
  have tokens : tree.words = rest.words := by rw [read.words, words_joined clean]
  have same : rest = tree.erase :=
    Syntax.unambiguous (by rw [Pipeline.words_erase, tokens])
  have later : Succeed outcomes state₁ 0 (1 + 0) := by
    refine Succeed.right (Nat.add_zero rest.opens.length ▸ succeed) ?_ ?_
    · rw [read.wires.opensMade, same]
      simp
    · rw [read.wires.pipes, same]
      exact congrArg (fun count => state.kernel.pipes + count)
        (Pipeline.length_links_erase tree).symm
  obtain ⟨fd, kernel, created⟩ := later.pipe
  rw [parseTokens_pipe inside ordinary]
  simp only [free, called, linkPipelines_some created, ne_eq, not_true, if_false]
  rw [finishCommandCall_of_finishes ⟨?_, ?_⟩]
  · exact ⟨_, _, rfl⟩
  · intro pipeline
    exact (holds.free_iff .stdin).mpr (unredirected.stdin (by simp [pipeline]))
  · intro pipeline
    simp only [ParserState.listPipped, ParserState.linked, read.globals.lastCall,
      read.globals.lastCallSubstitution, tokens]
    cases substitution : context.insideSubstitution with
    | true => exact .inl rfl
    | false =>
        right; left
        by_cases start : commandSubstitutionStart ∈ rest.words
        · simp [start]
        · have stale := cleared (by simp [substitution, start, pipeline])
          simp [stale]

end Steps

mutual

/-- A syntax tree whose redirections stand where they may and can be opened is accepted. -/
theorem Pipeline.accepted {outcomes : FileOutcomes} :
    ∀ (tree : Syntax) {commandString : CString} {insideSubstitution insidePipeline : Bool}
      {state : ParserState}, words commandSeparator commandString = tree.words →
      tree.Placed (!insidePipeline) true → Ready insideSubstitution state →
      Succeed outcomes state tree.opens.length tree.links.length →
      Unblocked insideSubstitution insidePipeline tree.words tree.pipes state →
      ∃ ref state', parseCommandCall outcomes commandString insideSubstitution insidePipeline
        state = (some ref, state')
  | .mk name items next, commandString, insideSubstitution, insidePipeline, state, tokens, placed,
      ready, succeed, unblocked => by
      have clean : ∀ token ∈ name.text :: (items.words ++ next.words), token ≠ [] ∧ ' ' ∉ token := by
        have all := words_clean commandSeparator_single commandString
        rw [tokens] at all
        simpa [Pipeline.words] using all
      simp only [Pipeline.Placed, Bool.true_and] at placed
      simp only [Pipeline.opens, Pipeline.links, List.length_append] at succeed
      have size : (splitString commandString commandSeparator).size ≠ 0 := by
        rw [splitString_size, splitString_tokens, tokens]
        simp [Pipeline.words]
      rw [parseCommandCall]
      simp only [size, if_false, splitString_tokens, tokens]
      rw [Pipeline.words_mk, List.cons_append, parseTokens_word name.ordinary]
      refine Items.accepted items placed.1 (fun token member => clean token (.tail _ member))
        (Next.accepted next placed.2 fun token member =>
          clean token (.tail _ (List.mem_append_right _ member)))
        newCommandCallBuilder (fun _ => none) _ state ready (holds_new _) (by simp)
        ⟨fun _ => rfl, fun _ => rfl⟩ succeed ?_
      rintro ⟨noStart, blocked⟩
      rcases unblocked with substitution | cleared | start | short
      · exact absurd (.inl substitution) blocked
      · exact cleared
      · simp only [Pipeline.words, List.cons_append, List.mem_cons, List.mem_append] at start
        rcases start with first | start | start
        · exact absurd first.symm (name.ne_symbol (by decide))
        · exact absurd start noStart
        · exact absurd (.inr (.inl start)) blocked
      · exact absurd (.inr (.inr short)) blocked

theorem Items.accepted {outcomes : FileOutcomes} {context : CallContext} {output : Bool}
    {tail : List CString} {opens pipes : Nat} {blocked : Prop} :
    ∀ (items : Items Labels.plain), items.Placed (!context.insidePipeline) output →
      (∀ token ∈ items.words ++ tail, token ≠ [] ∧ ' ' ∉ token) →
      Accepts outcomes context output tail opens pipes blocked →
      Accepts outcomes context output (items.words ++ tail) (items.opens.length + opens)
        (items.links.length + pipes) (commandSubstitutionStart ∉ items.words ∧ blocked)
  | .nil, _, _, next => by
      simpa [Items.words, Items.opens, Items.links] using next
  | .word argument rest, placed, clean, next => by
      simp only [Items.Placed] at placed
      have ih := Items.accepted rest placed
        (fun token member => clean token (by
          simpa [Items.words] using Or.inr (List.mem_append.mp member))) next
      have different : commandSubstitutionStart ≠ argument.text :=
        (argument.ne_symbol (by decide)).symm
      simpa [Items.words, Items.opens, Items.links, different] using accepts_word argument ih
  | .redirection symbol file _ rest, placed, clean, next => by
      simp only [Items.Placed] at placed
      have ih := Items.accepted rest placed.2.2
        (fun token member => clean token (by
          simpa [Items.words] using Or.inr (Or.inr (List.mem_append.mp member)))) next
      have first := symbol.text_ne.1.symm
      have second : commandSubstitutionStart ≠ file.text := (file.ne_symbol (by decide)).symm
      have all := accepts_redirection symbol file placed.1 placed.2.1 ih
      simpa [Items.words, Items.opens, Items.links, first, second, Nat.add_comm,
        Nat.add_left_comm] using all
  | .substitution _ body rest, placed, clean, next => by
      simp only [Items.Placed] at placed
      simp only [Items.words, List.cons_append, List.append_assoc] at clean ⊢
      have ih := Items.accepted rest placed.2
        (fun token member => clean token
          (.tail _ (List.mem_append_right _ (.tail _ member)))) next
      have all := accepts_substitution placed.1
        (fun token member => clean token (.tail _ member))
        (fun state ready succeed => Pipeline.accepted body
          (words_joined fun token member => clean token
            (.tail _ (List.mem_append_left _ member)))
          (Pipeline.Placed.widen body placed.1) ready succeed (.inl rfl)) ih
      simpa [Items.opens, Items.links, Nat.add_comm, Nat.add_left_comm, Nat.add_assoc] using all

theorem Next.accepted {outcomes : FileOutcomes} {context : CallContext} :
    ∀ (next : Next Labels.plain), next.Placed true →
      (∀ token ∈ next.words, token ≠ [] ∧ ' ' ∉ token) →
      Accepts outcomes context next.isLast next.words next.opens.length next.links.length
        (¬ (context.insideSubstitution = true ∨ commandSubstitutionStart ∈ next.words ∨
          next.pipes + context.insidePipeline.toNat ≤ 1))
  | .last, _, _ => accepts_nil
  | .pipe _ rest, placed, clean => by
      simp only [Next.Placed] at placed
      have cleanRest : ∀ token ∈ rest.words, token ≠ [] ∧ ' ' ∉ token :=
        fun token member => clean token (by simpa [Next.words] using Or.inr member)
      have different : commandSubstitutionStart ≠ pipeSymbol := by decide
      have all : Accepts outcomes context false _ _ _ _ := accepts_pipe cleanRest
        fun state ready succeed unblocked => Pipeline.accepted rest (words_joined cleanRest)
          placed ready succeed unblocked
      simpa [Next.words, Next.opens, Next.links, Next.isLast, Next.pipes, different] using all

end

theorem newEmptyCommand_of_words {commandString : CString}
    (nonempty : words commandSeparator commandString ≠ []) :
    newEmptyCommand commandString = true := by
  have blank : isOnlyComposedOf commandString commandSeparator ≠ true :=
    fun blank => nonempty (words_of_isOnlyComposedOf blank)
  have length : commandString.length ≠ 0 := by
    intro empty
    rw [List.length_eq_zero_iff.mp empty] at nonempty
    exact nonempty (words_nil _)
  simp [newEmptyCommand, blank, length]

/-- The accepted strings, in any state of the globals. -/
theorem parseCommand_accepts_iff {outcomes : FileOutcomes} {state : ParserState}
    (valid : state.kernel.Valid) (commandString : CString) :
    (∃ command state', parseCommand outcomes commandString state = (some command, state')) ↔
      ∃ tree : Syntax, tree.words = runs commandString ∧ tree.Placed true true ∧
        Succeed outcomes state tree.opens.length tree.links.length ∧
        Unblocked false false tree.words tree.pipes state := by
  rw [← words_commandSeparator]
  constructor
  · rintro ⟨command, state', parsed⟩
    obtain ⟨tree, read⟩ := parseCommand_some valid parsed
    refine ⟨tree.erase, ?_, ?_, ?_, ?_⟩
    · rw [Pipeline.words_erase, read.words]
    · exact (Pipeline.placed_erase tree).mpr read.placed
    · rw [Pipeline.opens_erase, Pipeline.length_links_erase]
      exact ⟨read.wires.succeed.opens, read.wires.succeed.pipes⟩
    · rw [Pipeline.words_erase, Pipeline.pipes_erase]
      exact read.unblocked
  · rintro ⟨tree, tokens, placed, succeed, unblocked⟩
    have nonblank : newEmptyCommand commandString = true := by
      refine newEmptyCommand_of_words ?_
      rw [← tokens]
      cases tree with
      | mk name items next => simp [Pipeline.words]
    have placed' : tree.Placed (!false) true := placed
    obtain ⟨ref, state₁, called⟩ := Pipeline.accepted tree tokens.symm placed'
      (ready_entering valid) ⟨succeed.opens, succeed.pipes⟩ unblocked
    obtain ⟨_, read⟩ := parseCommandCall_read (ready_entering valid) called
    have lastCall := read.globals.lastCall
    simp only [Bool.false_eq_true, if_false] at lastCall
    rw [parseCommand_eq nonblank, called]
    simp only [concludeCommand, lastCall]
    exact ⟨_, _, rfl⟩

/-- A shell that has just started: the standard descriptors are open and no command
call has been parsed. -/
structure FreshShell (state : ParserState) : Prop where
  valid : state.kernel.Valid
  lastCall : state.lastParsedCommandCall = none
  lastCallSubstitution : state.lastParsedCommandCallSubstitution = none

/-- The shell right after its start, with nothing open but the standard descriptors. -/
def startedShell : ParserState :=
  { kernel :=
      { descriptors := [⟨0, .inherited 0⟩, ⟨1, .inherited 1⟩, ⟨2, .inherited 2⟩]
        opens := []
        pipes := 0 }
    messages := []
    heap := []
    lastParsedCommandCall := none
    lastParsedCommandCallSubstitution := none
    commandCalls := []
    openPipes := [] }

theorem valid_startedShell : startedShell.kernel.Valid where
  distinct := by decide
  nonnegative := by decide
  standard := by
    intro number nonnegative small
    have cases : number = 0 ∨ number = 1 ∨ number = 2 := by omega
    rcases cases with rfl | rfl | rfl <;> decide
  serials := by
    intro descriptor member serial isPipe
    simp only [startedShell, List.mem_cons, List.not_mem_nil, or_false] at member
    rcases member with rfl | rfl | rfl <;> simp at isPipe

theorem fresh_startedShell : FreshShell startedShell := ⟨valid_startedShell, rfl, rfl⟩

/-- Outcomes without failure. -/
def FileOutcomes.allSucceed : FileOutcomes :=
  { openError := fun _ => none
    pipeSucceeds := fun _ => true
    freed := fun _ => ⟨0, 0, 0⟩ }

/-- In a fresh shell a command string is accepted exactly when its words derive from
the grammar and its redirections, from left to right, can be opened. -/
theorem parseCommand_accepts_iff_derives {outcomes : FileOutcomes} {state : ParserState}
    (fresh : FreshShell state) (pipes : ∀ serial, outcomes.pipeSucceeds serial = true)
    (commandString : CString) :
    (∃ command state', parseCommand outcomes commandString state = (some command, state')) ↔
      ∃ tree : Syntax, tree.words = runs commandString ∧ tree.Placed true true ∧
        ∀ index < tree.opens.length,
          outcomes.openError (state.kernel.opens.length + index) = none := by
  rw [parseCommand_accepts_iff fresh.valid]
  constructor
  · rintro ⟨tree, tokens, placed, succeed, _⟩
    exact ⟨tree, tokens, placed, succeed.opens⟩
  · rintro ⟨tree, tokens, placed, succeed⟩
    exact ⟨tree, tokens, placed, ⟨succeed, fun index _ => pipes _⟩,
      .inr (.inl fresh.lastCallSubstitution)⟩

theorem exists_of_isSome {α β : Type} {pair : Option α × β} (some : pair.1.isSome = true) :
    ∃ value state, pair = (.some value, state) := by
  obtain ⟨value, found⟩ := Option.isSome_iff_exists.mp some
  exact ⟨value, pair.2, Prod.ext found rfl⟩

theorem derives_substitution_in_pipeline :
    ∃ tree : Syntax, tree.words = runs "diff <( sort a | uniq ) < b | wc > n".toList ∧
      tree.Placed true true :=
  have accepted := exists_of_isSome (show (parseCommand .allSucceed
    "diff <( sort a | uniq ) < b | wc > n".toList startedShell).1.isSome = true by decide +kernel)
  have ⟨tree, tokens, placed, _⟩ :=
    (parseCommand_accepts_iff_derives fresh_startedShell (fun _ => rfl)
      "diff <( sort a | uniq ) < b | wc > n".toList).mp accepted
  ⟨tree, tokens, placed⟩

end Jsh
