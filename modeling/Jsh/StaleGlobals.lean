import Jsh.Ownership

/-!
# What earlier command strings leave behind

Two parses of a string that start with the same descriptors and that both succeed
give the same command. What an earlier string leaves in the globals can only make
the parser reject: a value in the second one blocks pipelines of three stages.
-/

set_option autoImplicit false

namespace Jsh

/-- Two states that agree on what a command shows of them. -/
structure Alike (state₁ state₂ : ParserState) : Prop where
  kernel : state₁.kernel = state₂.kernel
  openPipes : state₁.openPipes = state₂.openPipes

/-- Two runs that started alike have done the same. -/
structure Twins (state₁ state₂ state₁' state₂' : ParserState) : Prop extends
    Alike state₁' state₂' where
  heap : ∃ calls, state₁'.heap = state₁.heap ++ calls ∧ state₂'.heap = state₂.heap ++ calls

theorem Twins.trans {state₁ state₂ middle₁ middle₂ state₁' state₂' : ParserState}
    (first : Twins state₁ state₂ middle₁ middle₂) (second : Twins middle₁ middle₂ state₁' state₂') :
    Twins state₁ state₂ state₁' state₂' := by
  obtain ⟨_, calls, heap₁, heap₂⟩ := first
  obtain ⟨alike, more, heap₁', heap₂'⟩ := second
  refine ⟨alike, calls ++ more, ?_, ?_⟩
  · rw [heap₁', heap₁, List.append_assoc]
  · rw [heap₂', heap₂, List.append_assoc]

def CallTwins (outcomes : FileOutcomes) (commandString : CString)
    (insideSubstitution insidePipeline : Bool) (state₁ : ParserState) : Prop :=
  ∀ state₂ ref₁ ref₂ state₁' state₂', Alike state₁ state₂ →
    Ready insideSubstitution state₁ → Ready insideSubstitution state₂ →
    parseCommandCall outcomes commandString insideSubstitution insidePipeline state₁ =
      (some ref₁, state₁') →
    parseCommandCall outcomes commandString insideSubstitution insidePipeline state₂ =
      (some ref₂, state₂') →
    Twins state₁ state₂ state₁' state₂'

def TokensTwins (outcomes : FileOutcomes) (context : CallContext) (builder : CommandCallBuilder)
    (before : List (Option CString)) (rest : List CString) (state₁ : ParserState) : Prop :=
  ∀ state₂ ref₁ ref₂ state₁' state₂', Alike state₁ state₂ →
    Ready context.insideSubstitution state₁ → Ready context.insideSubstitution state₂ →
    (∀ token ∈ rest, token ≠ [] ∧ ' ' ∉ token) →
    parseTokens outcomes context builder before rest state₁ = (some ref₁, state₁') →
    parseTokens outcomes context builder before rest state₂ = (some ref₂, state₂') →
    Twins state₁ state₂ state₁' state₂'

def SubstitutionTwins (outcomes : FileOutcomes) (builder : CommandCallBuilder)
    (rest : List CString) (state₁ : ParserState) : Prop :=
  ∀ state₂ result₁ result₂ state₁' state₂', Alike state₁ state₂ →
    state₁.kernel.Valid → state₁.lastParsedCommandCall = none →
    state₂.lastParsedCommandCall = none →
    (∀ token ∈ rest, token ≠ [] ∧ ' ' ∉ token) →
    parseCommandSubstitution outcomes builder rest state₁ = (some result₁, state₁') →
    parseCommandSubstitution outcomes builder rest state₂ = (some result₂, state₂') →
    result₁ = result₂ ∧ Twins state₁ state₂ state₁' state₂'

/-- The trees two such runs have read have their calls in the same places. -/
theorem CallRead.twins {outcomes : FileOutcomes} {commandString : CString}
    {insideSubstitution insidePipeline : Bool} {state₁ state₂ state₁' state₂' : ParserState}
    {ref₁ ref₂ : CallRef} {tree₁ tree₂ : Pipeline Labels.wired}
    (read₁ : CallRead outcomes commandString insideSubstitution insidePipeline state₁ state₁' ref₁
      tree₁)
    (read₂ : CallRead outcomes commandString insideSubstitution insidePipeline state₂ state₂' ref₂
      tree₂)
    (twins : Twins state₁ state₂ state₁' state₂') :
    tree₁.calls commandString none none = tree₂.calls commandString none none ∧
      tree₁.size = tree₂.size ∧ tree₁.lastPosition = tree₂.lastPosition := by
  have same : tree₁.erase = tree₂.erase := by
    refine Syntax.unambiguous ?_
    rw [Pipeline.words_erase, Pipeline.words_erase, read₁.words, read₂.words]
  obtain ⟨_, calls, heap₁, heap₂⟩ := twins
  rw [read₁.heap] at heap₁
  rw [read₂.heap] at heap₂
  refine ⟨?_, ?_, ?_⟩
  · rw [List.append_cancel_left heap₁, List.append_cancel_left heap₂]
  · rw [← Pipeline.size_erase tree₁, same, Pipeline.size_erase]
  · rw [← Pipeline.lastPosition_erase tree₁, same, Pipeline.lastPosition_erase]

section Steps

variable {outcomes : FileOutcomes} {context : CallContext} {builder : CommandCallBuilder}
  {before : List (Option CString)} {rest : List CString} {state₁ : ParserState}

theorem tokensTwins_nil : TokensTwins outcomes context builder before [] state₁ := by
  intro state₂ ref₁ ref₂ state₁' state₂' alike _ _ _ parsed₁ parsed₂
  rw [parseTokens_nil] at parsed₁ parsed₂
  obtain ⟨_, rfl, rfl⟩ := finishCommandCall_some parsed₁
  obtain ⟨_, rfl, rfl⟩ := finishCommandCall_some parsed₂
  exact ⟨⟨alike.kernel, alike.openPipes⟩, _, rfl, rfl⟩

theorem tokensTwins_word {token : CString}
    (ordinary : containsString redirectionCaretSymbols token = false)
    (ih : TokensTwins outcomes context builder (before ++ [some token]) rest state₁) :
    TokensTwins outcomes context builder before (token :: rest) state₁ := by
  intro state₂ ref₁ ref₂ state₁' state₂' alike ready₁ ready₂ clean parsed₁ parsed₂
  rw [parseTokens_word ordinary] at parsed₁ parsed₂
  exact ih state₂ ref₁ ref₂ state₁' state₂' alike ready₁ ready₂
    (fun token member => clean token (.tail _ member)) parsed₁ parsed₂

/-- A redirection only looks at the descriptors. -/
theorem redirectStream_alike {stream : Stream} {mode : OpenMode}
    {complaint : CString → Option CString} {fds fds' : Fds} {filename : CString}
    {state₂ middle₁ : ParserState} (alike : Alike state₁ state₂) (valid : state₁.kernel.Valid)
    (redirected : redirectStream outcomes stream mode complaint fds filename state₁ =
      (some fds', middle₁)) :
    ∃ kernel : Kernel, kernel.Valid ∧ middle₁ = { state₁ with kernel } ∧
      redirectStream outcomes stream mode complaint fds filename state₂ =
        (some fds', { state₂ with kernel }) := by
  unfold redirectStream at redirected ⊢
  rw [← alike.kernel]
  cases opening : state₁.kernel.openFile outcomes filename mode with
  | mk result kernel =>
      have valid' := valid.openFile opening
      cases result with
      | error error =>
          cases complains : complaint error <;> simp [opening, complains] at redirected
      | ok fd =>
          simp only [opening, Prod.mk.injEq, Option.some.injEq] at redirected
          obtain ⟨rfl, rfl⟩ := redirected
          refine ⟨_, ?_, rfl, rfl⟩
          split
          · exact valid'.close (by assumption)
          · exact valid'

theorem tokensTwins_redirection {symbol : Redirection} {fds : Fds} {middle₁ : ParserState}
    (inside : ¬ (rest = [] ∨ before = []))
    (apart : containsString redirectionCaretSymbols (rest.headD []) = false)
    (redirected : parseRedirections outcomes builder.fds symbol.text (rest.headD []) state₁ =
      (some fds, middle₁))
    (ih : TokensTwins outcomes context { builder with fds } (before ++ [none, none]) rest.tail
      middle₁) :
    TokensTwins outcomes context builder before (symbol.text :: rest) state₁ := by
  intro state₂ ref₁ ref₂ state₁' state₂' alike ready₁ ready₂ clean parsed₁ parsed₂
  rw [parseTokens_redirection_text inside apart] at parsed₁ parsed₂
  rw [redirected] at parsed₁
  rw [parseRedirections_eq] at redirected parsed₂
  obtain ⟨kernel, valid, rfl, redirected₂⟩ := redirectStream_alike alike ready₁.valid redirected
  rw [redirected₂] at parsed₂
  obtain ⟨alike', calls, heap₁, heap₂⟩ := ih { state₂ with kernel } ref₁ ref₂ state₁' state₂'
    ⟨rfl, alike.openPipes⟩
    ⟨valid, ready₁.lastCall, ready₁.lastCallSubstitution⟩
    ⟨valid, ready₂.lastCall, ready₂.lastCallSubstitution⟩
    (fun token member => clean token (.tail _ (List.mem_of_mem_tail member))) parsed₁ parsed₂
  exact ⟨alike', calls, heap₁, heap₂⟩

theorem tokensTwins_substitution {builder' : CommandCallBuilder} {path : CString}
    {position : Nat} {middle₁ : ParserState} (inside : ¬ (rest = [] ∨ before = []))
    (apart : containsString redirectionCaretSymbols (rest.headD []) = false)
    (substituted : parseCommandSubstitution outcomes builder rest state₁ =
      (some (builder', path, position), middle₁))
    (substitution : SubstitutionTwins outcomes builder rest state₁)
    (ih : TokensTwins outcomes context builder'
      (before ++ none :: List.replicate position none ++ [some path]) (rest.drop (position + 1))
      middle₁) :
    TokensTwins outcomes context builder before (commandSubstitutionStart :: rest) state₁ := by
  intro state₂ ref₁ ref₂ state₁' state₂' alike ready₁ ready₂ clean parsed₁ parsed₂
  have cleanRest : ∀ token ∈ rest, token ≠ [] ∧ ' ' ∉ token :=
    fun token member => clean token (.tail _ member)
  rw [parseTokens_substitution inside apart] at parsed₁ parsed₂
  rw [substituted] at parsed₁
  cases substituted₂ : parseCommandSubstitution outcomes builder rest state₂ with
  | mk result middle₂ =>
      cases result with
      | none => simp [substituted₂, abandonCommandCall] at parsed₂
      | some result₂ =>
          obtain ⟨rfl, twins⟩ := substitution _ _ _ _ _ alike ready₁.valid ready₁.lastCall
            ready₂.lastCall cleanRest substituted substituted₂
          rw [substituted₂] at parsed₂
          obtain ⟨_, _, read₁⟩ := (specifications outcomes).2.2 builder rest state₁ _ _ _ _
            ready₁.valid ready₁.lastCall cleanRest substituted
          obtain ⟨_, _, read₂⟩ := (specifications outcomes).2.2 builder rest state₂ _ _ _ _
            ready₂.valid ready₂.lastCall cleanRest substituted₂
          exact twins.trans (ih _ _ _ _ _ twins.toAlike
            ⟨read₁.wires.valid, read₁.lastCall, fun _ => read₁.lastCallSubstitution⟩
            ⟨read₂.wires.valid, read₂.lastCall, fun _ => read₂.lastCallSubstitution⟩
            (fun token member => cleanRest token (List.mem_of_mem_drop member)) parsed₁ parsed₂)

/-- A write to the call in the same place of two alike heaps. -/
theorem Twins.modify {state₂ state₁' state₂' : ParserState}
    (twins : Twins state₁ state₂ state₁' state₂') (offset : Nat)
    (update : CommandCall → CommandCall) :
    ∃ calls, state₁'.heap.modify (state₁.heap.length + offset) update = state₁.heap ++ calls ∧
      state₂'.heap.modify (state₂.heap.length + offset) update = state₂.heap ++ calls := by
  obtain ⟨_, calls, heap₁, heap₂⟩ := twins
  refine ⟨calls.modify offset update, ?_, ?_⟩
  · rw [heap₁, modify_append_right]
  · rw [heap₂, modify_append_right]

theorem substitutionTwins
    (call : ∀ position fd kernel, substitutionEnd 0 rest = some position →
      state₁.kernel.pipe outcomes = (some fd, kernel) →
      CallTwins outcomes (joinStrings (rest.take position) [' ']) true false
        (state₁.substituting kernel fd)) :
    SubstitutionTwins outcomes builder rest state₁ := by
  rintro state₂ ⟨builder₁, path₁, position₁⟩ ⟨builder₂, path₂, position₂⟩ state₁' state₂' alike
    valid noLast₁ noLast₂ clean substituted₁ substituted₂
  obtain ⟨fd, kernel, ref₁, last₁, middle₁, ended, created, called₁, lastCall₁, kept₁, rfl, rfl,
    rfl⟩ := parseCommandSubstitution_some substituted₁
  obtain ⟨fd₂, kernel₂, ref₂, last₂, middle₂, ended₂, created₂, called₂, lastCall₂, kept₂, rfl, rfl,
    rfl⟩ := parseCommandSubstitution_some substituted₂
  rw [ended, Option.some.injEq] at ended₂
  rw [← alike.kernel, created, Prod.mk.injEq, Option.some.injEq] at created₂
  obtain rfl := ended₂
  obtain ⟨rfl, rfl⟩ := created₂
  have valid' := valid.pipe created
  have ready₁ : Ready true (state₁.substituting kernel fd) := ⟨valid', noLast₁, fun _ => rfl⟩
  have ready₂ : Ready true (state₂.substituting kernel fd) := ⟨valid', noLast₂, fun _ => rfl⟩
  have alike' : Alike (state₁.substituting kernel fd) (state₂.substituting kernel fd) :=
    ⟨rfl, congrArg (· ++ [fd]) alike.openPipes⟩
  have twins := call position₁ fd kernel ended created _ _ _ _ _ alike' ready₁ ready₂ called₁
    called₂
  obtain ⟨body₁, read₁⟩ := parseCommandCall_read ready₁ called₁
  obtain ⟨body₂, read₂⟩ := parseCommandCall_read ready₂ called₂
  obtain ⟨_, _, places⟩ := read₁.twins read₂ twins
  have place₁ : last₁ = state₁.heap.length + body₁.lastPosition := by
    simpa [lastCall₁, ParserState.substituting] using read₁.globals.lastCallSubstitution
  have place₂ : last₂ = state₂.heap.length + body₁.lastPosition := by
    simpa [lastCall₂, ParserState.substituting, places] using read₂.globals.lastCallSubstitution
  have link : state₁.nextLink fd = state₂.nextLink fd := by
    simp [ParserState.nextLink, alike.kernel, alike.openPipes]
  refine ⟨by rw [alike.openPipes], ⟨twins.kernel, twins.openPipes⟩, ?_⟩
  rw [place₁, place₂, link]
  exact twins.modify body₁.lastPosition _

theorem tokensTwins_pipe (inside : ¬ (rest = [] ∨ before = []))
    (apart : containsString redirectionCaretSymbols (rest.headD []) = false)
    (call : builder.fds.stdout = uninitializedFd →
      CallTwins outcomes (joinStrings rest [' ']) context.insideSubstitution true state₁) :
    TokensTwins outcomes context builder before (pipeSymbol :: rest) state₁ := by
  intro state₂ ref₁ ref₂ state₁' state₂' alike ready₁ ready₂ clean parsed₁ parsed₂
  obtain ⟨pipped₁, middle₁, fd, kernel, free, called₁, created, finished₁⟩ :=
    parseTokens_pipe_some inside apart parsed₁
  obtain ⟨pipped₂, middle₂, fd₂, kernel₂, _, called₂, created₂, finished₂⟩ :=
    parseTokens_pipe_some inside apart parsed₂
  obtain ⟨_, rfl, rfl⟩ := finishCommandCall_some finished₁
  obtain ⟨_, rfl, rfl⟩ := finishCommandCall_some finished₂
  have twins := call free _ _ _ _ _ alike ready₁ ready₂ called₁ called₂
  rw [← twins.kernel, created, Prod.mk.injEq, Option.some.injEq] at created₂
  obtain ⟨rfl, rfl⟩ := created₂
  obtain ⟨tree₁, read₁⟩ := parseCommandCall_read ready₁ called₁
  obtain ⟨tree₂, read₂⟩ := parseCommandCall_read ready₂ called₂
  obtain ⟨_, sizes, _⟩ := read₁.twins read₂ twins
  have link : middle₁.nextLink fd = middle₂.nextLink fd := by
    simp [ParserState.nextLink, twins.kernel, twins.openPipes]
  obtain ⟨calls, heap₁, heap₂⟩ := twins.modify (tree₁.size - 1) (·.readFrom (middle₁.nextLink fd))
  rw [← read₁.ref] at heap₁
  rw [sizes, ← read₂.ref, link] at heap₂
  have openPipes : middle₁.openPipes ++ [fd] = middle₂.openPipes ++ [fd] := by
    rw [twins.openPipes]
  refine ⟨⟨rfl, openPipes⟩, calls ++ [buildCommand (builder.writingTo (middle₁.nextLink fd))
    ((before ++ List.replicate (rest.length + 1) none).filterMap id)
    (removeExtraPipes 0 (trimSpaces context.commandString))], ?_, ?_⟩
  · simp only [ParserState.finished, ParserState.listPipped, ParserState.linked, heap₁,
      List.append_assoc]
  · simp only [ParserState.finished, ParserState.listPipped, ParserState.linked, heap₂,
      List.append_assoc, link]

theorem callTwins {commandString : CString} {insideSubstitution insidePipeline : Bool}
    (nonblank : words commandSeparator commandString ≠ [])
    (tokens : TokensTwins outcomes { commandString, insideSubstitution, insidePipeline }
      newCommandCallBuilder [] (words commandSeparator commandString) state₁) :
    CallTwins outcomes commandString insideSubstitution insidePipeline state₁ := by
  intro state₂ ref₁ ref₂ state₁' state₂' alike ready₁ ready₂ parsed₁ parsed₂
  rw [parseCommandCall_words nonblank] at parsed₁ parsed₂
  exact tokens _ _ _ _ _ alike ready₁ ready₂ (words_clean commandSeparator_single commandString)
    parsed₁ parsed₂

end Steps

theorem allTwins (outcomes : FileOutcomes) :
    (∀ commandString insideSubstitution insidePipeline state₁,
      CallTwins outcomes commandString insideSubstitution insidePipeline state₁) ∧
    (∀ context builder before rest state₁,
      TokensTwins outcomes context builder before rest state₁) ∧
    (∀ builder rest state₁, SubstitutionTwins outcomes builder rest state₁) := by
  apply parser_induction
  case blank =>
    intro commandString insideSubstitution insidePipeline state blank _ _ _ _ _ _ _ _ parsed₁
    rw [parseCommandCall_blank blank] at parsed₁
    cases parsed₁
  case string =>
    intro commandString insideSubstitution insidePipeline state nonblank ih
    exact callTwins nonblank ih
  case nil =>
    intro context builder before state
    exact tokensTwins_nil
  case word =>
    intro context builder before token rest state ordinary ih
    exact tokensTwins_word ordinary ih
  case misplaced =>
    intro context builder before token rest state symbol outside _ _ _ _ _ _ _ _ _ parsed₁
    rw [parseTokens_misplaced symbol outside] at parsed₁
    cases parsed₁
  case adjacent =>
    intro context builder before token rest state symbol inside adjacent _ _ _ _ _ _ _ _ _ parsed₁
    rw [parseTokens_adjacent symbol inside adjacent] at parsed₁
    cases parsed₁
  case start =>
    intro context builder before rest state inside apart body ih
    cases substituted : parseCommandSubstitution outcomes builder rest state with
    | mk result middle =>
        cases result with
        | none =>
            intro _ _ _ _ _ _ _ _ _ parsed₁
            rw [parseTokens_substitution inside apart, substituted] at parsed₁
            cases parsed₁
        | some result =>
            exact tokensTwins_substitution inside apart substituted body (ih _ _ _ _ substituted)
  case pipe =>
    intro context builder before rest state inside apart ih
    exact tokensTwins_pipe inside apart ih
  case stray =>
    intro context builder before rest state inside apart _ _ _ _ _ _ _ _ _ parsed₁
    rw [parseTokens_redirection (by decide) inside apart (by decide) (by decide),
      parseRedirections_end] at parsed₁
    cases parsed₁
  case redirection =>
    intro context builder before symbol rest state inside apart ih
    cases redirected : parseRedirections outcomes builder.fds symbol.text (rest.headD []) state with
    | mk result middle =>
        cases result with
        | none =>
            intro _ _ _ _ _ _ _ _ _ parsed₁
            rw [parseTokens_redirection_text inside apart, redirected] at parsed₁
            cases parsed₁
        | some fds => exact tokensTwins_redirection inside apart redirected (ih fds middle redirected)
  case body =>
    intro builder rest state ih
    exact substitutionTwins ih

/-! ## Commands -/

/-- A state between two commands: a fresh shell that has parsed any strings, each
with any outcome. Executing a command and closing its descriptors in between may
leave any kernel whose standard descriptors are open. -/
inductive Reached (outcomes : FileOutcomes) : ParserState → Prop
  | fresh {state : ParserState} (fresh : FreshShell state) : Reached outcomes state
  | parsed {state : ParserState} (reached : Reached outcomes state) (commandString : CString)
      (kernel : Kernel) (valid : kernel.Valid) :
      Reached outcomes { (parseCommand outcomes commandString state).2 with kernel }

theorem Reached.valid {outcomes : FileOutcomes} {state : ParserState}
    (reached : Reached outcomes state) : state.kernel.Valid := by
  cases reached with
  | fresh fresh => exact fresh.valid
  | parsed _ _ _ valid => exact valid

/-- Two successful parses of a string with the same descriptors give the same command. -/
theorem parseCommand_deterministic {outcomes : FileOutcomes} {commandString : CString}
    {state₁ state₂ state₁' state₂' : ParserState} {command₁ command₂ : Command}
    (valid : state₁.kernel.Valid) (kernel : state₁.kernel = state₂.kernel)
    (parsed₁ : parseCommand outcomes commandString state₁ = (some command₁, state₁'))
    (parsed₂ : parseCommand outcomes commandString state₂ = (some command₂, state₂')) :
    command₁ = command₂ := by
  have valid₂ : state₂.kernel.Valid := kernel ▸ valid
  obtain ⟨_, middle₁, tree₁, called₁, called₁Read, read₁⟩ := parseCommand_called valid parsed₁
  obtain ⟨_, middle₂, tree₂, called₂, called₂Read, read₂⟩ := parseCommand_called valid₂ parsed₂
  have twins := (allTwins outcomes).1 commandString false false state₁.entering state₂.entering _ _
    _ _ ⟨kernel, rfl⟩ (ready_entering valid) (ready_entering valid₂) called₁ called₂
  obtain ⟨calls, _, last⟩ := called₁Read.twins called₂Read twins
  have lastCalls : tree₁.lastCall commandString none none =
      tree₂.lastCall commandString none none := by
    have entry₁ := tree₁.calls_lastPosition commandString none none
    have entry₂ := tree₂.calls_lastPosition commandString none none
    rw [calls, last, entry₂] at entry₁
    exact (Option.some.inj entry₁).symm
  have pipes : tree₁.links.map (·.ends) = tree₂.links.map (·.ends) := by
    have same := twins.openPipes
    rw [called₁Read.wires.openPipes, called₂Read.wires.openPipes] at same
    exact same
  have sameCalls : command₁.commandCalls = command₂.commandCalls := by
    rw [read₁.calls, read₂.calls, lastCalls, calls, last]
  have samePipes : command₁.openPipes = command₂.openPipes := by
    rw [read₁.openPipes, read₂.openPipes, pipes]
  have sameBackground := read₁.background.trans read₂.background.symm
  have sameString := read₁.commandString.trans read₂.commandString.symm
  cases command₁
  cases command₂
  simp only at sameCalls samePipes sameBackground sameString
  rw [sameCalls, samePipes, sameBackground, sameString]

/-- What a fresh shell with the same descriptors accepts. -/
private theorem fresh_accepts_iff (outcomes : FileOutcomes) {state fresh : ParserState}
    (started : FreshShell fresh) (kernel : fresh.kernel = state.kernel) (commandString : CString) :
    (∃ command fresh', parseCommand outcomes commandString fresh = (some command, fresh')) ↔
      ∃ tree : Syntax, tree.words = runs commandString ∧ tree.Placed true true ∧
        Succeed outcomes state tree.opens.length tree.links.length := by
  rw [parseCommand_accepts_iff started.valid]
  constructor
  · rintro ⟨tree, tokens, placed, succeed, _⟩
    exact ⟨tree, tokens, placed, kernel ▸ succeed.opens, kernel ▸ succeed.pipes⟩
  · rintro ⟨tree, tokens, placed, succeed⟩
    exact ⟨tree, tokens, placed, ⟨kernel ▸ succeed.opens, kernel ▸ succeed.pipes⟩,
      .inr (.inl started.lastCallSubstitution)⟩

/-- The strings that parse differently after an earlier one has left its call in the
second global: those that derive from the grammar, with files that can be opened,
as a pipeline of three or more stages without a substitution. -/
theorem parseCommand_eq_fresh_iff {outcomes : FileOutcomes} {state fresh : ParserState}
    (reached : Reached outcomes state) (started : FreshShell fresh)
    (kernel : fresh.kernel = state.kernel) (commandString : CString) :
    (parseCommand outcomes commandString state).1 =
        (parseCommand outcomes commandString fresh).1 ↔
      ∀ tree : Syntax, tree.words = runs commandString → tree.Placed true true →
        Succeed outcomes state tree.opens.length tree.links.length →
        state.lastParsedCommandCallSubstitution = none ∨
          commandSubstitutionStart ∈ runs commandString ∨ tree.pipes ≤ 1 := by
  have acceptsFresh := fresh_accepts_iff outcomes started kernel commandString
  have accepts : (∃ command state', parseCommand outcomes commandString state = (some command, state')) ↔ _ :=
    parseCommand_accepts_iff reached.valid commandString
  cases parsed : parseCommand outcomes commandString state with
  | mk result state' =>
    cases parsedFresh : parseCommand outcomes commandString fresh with
    | mk resultFresh fresh' =>
      simp only [parsed, parsedFresh, Prod.mk.injEq, exists_eq_right'] at accepts acceptsFresh ⊢
      constructor
      · intro same tree tokens placed succeed
        obtain ⟨command, accepted⟩ := acceptsFresh.mpr ⟨tree, tokens, placed, succeed⟩
        obtain ⟨tree', tokens', _, _, unblocked⟩ := accepts.mp ⟨command, same.trans accepted⟩
        obtain rfl : tree' = tree := Syntax.unambiguous (tokens'.trans tokens.symm)
        rw [← tokens]
        simpa [Unblocked] using unblocked
      · intro condition
        cases resultFresh with
        | some command =>
            obtain ⟨tree, tokens, placed, succeed⟩ := acceptsFresh.mp ⟨_, rfl⟩
            have unblocked := condition tree tokens placed succeed
            rw [← tokens] at unblocked
            obtain ⟨command', rfl⟩ := accepts.mpr ⟨tree, tokens, placed, succeed,
              by simpa [Unblocked] using unblocked⟩
            rw [parseCommand_deterministic reached.valid kernel.symm parsed parsedFresh]
        | none =>
            cases result with
            | none => rfl
            | some command =>
                obtain ⟨tree, tokens, placed, succeed, _⟩ := accepts.mp ⟨_, rfl⟩
                obtain ⟨_, impossible⟩ := acceptsFresh.mpr ⟨tree, tokens, placed, succeed⟩
                cases impossible

/-- The state a string leaves whose substitution redirects its output. -/
def staleShell : ParserState := (parseCommand .allSucceed "a <( b > f )".toList startedShell).2

private theorem valid_staleShell : staleShell.kernel.Valid :=
  parseCommand_valid valid_startedShell

private theorem reached_staleShell : Reached .allSucceed staleShell :=
  .parsed (.fresh fresh_startedShell) "a <( b > f )".toList _ valid_staleShell

/-- A fresh shell with the same descriptors. -/
def freshShell : ParserState := { startedShell with kernel := staleShell.kernel }

private theorem fresh_freshShell : FreshShell freshShell := ⟨valid_staleShell, rfl, rfl⟩

/-- `a | b | c` is refused after `a <( b > f )` has been, and accepted by a fresh shell. -/
theorem stale_substitution_refuses_pipeline :
    Reached .allSucceed staleShell ∧ FreshShell freshShell ∧
      freshShell.kernel = staleShell.kernel ∧
      (parseCommand .allSucceed "a | b | c".toList staleShell).1 ≠
        (parseCommand .allSucceed "a | b | c".toList freshShell).1 :=
  ⟨reached_staleShell, fresh_freshShell, rfl, by decide +kernel⟩

theorem pipeline_of_three_differs :
    ¬ ∀ tree : Syntax, tree.words = runs "a | b | c".toList → tree.Placed true true →
        Succeed .allSucceed staleShell tree.opens.length tree.links.length →
        staleShell.lastParsedCommandCallSubstitution = none ∨
          commandSubstitutionStart ∈ runs "a | b | c".toList ∨ tree.pipes ≤ 1 :=
  mt (parseCommand_eq_fresh_iff reached_staleShell fresh_freshShell rfl "a | b | c".toList).mpr
    (by decide +kernel)

end Jsh
