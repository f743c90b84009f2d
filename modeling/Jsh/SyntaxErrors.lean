import Mathlib.Data.List.Infix
import Jsh.Acceptance

/-!
# What a syntax error opens

`parse_command` opens the files of its redirections while it still looks for syntax
errors. A malformed string opens none exactly when an error comes before its first
redirection.
-/

set_option autoImplicit false

namespace Jsh

/-! ## Opens -/

theorem opens_closeUnusedFileDescriptorsFromArray (kernel : Kernel) (fds : List Int) :
    (closeUnusedFileDescriptorsFromArray kernel fds).opens = kernel.opens := by
  unfold closeUnusedFileDescriptorsFromArray
  induction closeCalls fds generalizing kernel with
  | nil => rfl
  | cons fd rest ih => exact ih _

theorem opens_closePipes (openPipes : List (Int × Int)) (kernel : Kernel) :
    (closePipes openPipes kernel).opens = kernel.opens := by
  unfold closePipes
  induction openPipes generalizing kernel with
  | nil => rfl
  | cons pipe rest ih => exact ih _

theorem opens_closeUnusedFileDescriptors (calls : List CommandCall) (openPipes : List (Int × Int))
    (kernel : Kernel) :
    (closeUnusedFileDescriptors calls openPipes kernel).opens = kernel.opens := by
  unfold closeUnusedFileDescriptors
  induction calls generalizing kernel with
  | nil => rfl
  | cons call rest ih =>
      rw [List.foldl_cons, ih]
      unfold closeUnusedFileDescriptorsHelper
      induction fillSet 3 [call.stdin, call.stdout, call.stderr] generalizing kernel with
      | nil => rfl
      | cons fd fds ih' =>
          rw [List.foldl_cons, ih']
          split
          · rfl
          · rfl

section Opens

variable {outcomes : FileOutcomes} {context : CallContext} {builder : CommandCallBuilder}
  {before : List (Option CString)} {rest : List CString} {state : ParserState}

@[simp] theorem opens_abandonCommandCall (builder : CommandCallBuilder) (state : ParserState) :
    (abandonCommandCall builder state).2.kernel.opens = state.kernel.opens :=
  opens_closeUnusedFileDescriptorsFromArray _ _

@[simp] theorem opens_finishCommandCall (context : CallContext) (builder : CommandCallBuilder)
    (before : List (Option CString)) (state : ParserState) :
    (finishCommandCall context builder before state).2.kernel.opens = state.kernel.opens := by
  by_cases finishes : Finishes context builder state
  · rw [finishCommandCall_of_finishes finishes]
    rfl
  · rw [finishCommandCall_of_not_finishes finishes]
    exact opens_abandonCommandCall _ _

@[simp] theorem opens_concludeSubstitution (outcomes : FileOutcomes)
    (builder : CommandCallBuilder) (link : Link) (position : Nat)
    (called : Option CallRef × ParserState) :
    (concludeSubstitution outcomes builder link position called).2.kernel.opens =
      called.2.kernel.opens := by
  obtain ⟨call, state⟩ := called
  unfold concludeSubstitution
  dsimp only
  split
  · split
    · exact opens_closeUnusedFileDescriptorsFromArray _ _
    · rfl
  · rfl

theorem opens_pipe {result : Option (Int × Int)} {kernel : Kernel}
    (created : state.kernel.pipe outcomes = (result, kernel)) : kernel.opens = state.kernel.opens := by
  cases result with
  | none =>
      obtain ⟨_, rfl⟩ := Kernel.pipe_none created
      rfl
  | some fd =>
      obtain ⟨_, _, _, rfl⟩ := Kernel.pipe_some created
      rfl

/-- A redirection opens its file, or tries to. -/
theorem opens_parseRedirections (outcomes : FileOutcomes) (state : ParserState) (fds : Fds)
    (symbol : Redirection) (filename : CString) :
    (parseRedirections outcomes fds symbol.text filename state).2.kernel.opens =
      state.kernel.opens ++ [(filename, symbol.mode)] := by
  rw [parseRedirections_eq, redirectStream]
  cases opened : state.kernel.openFile outcomes filename symbol.mode with
  | mk result kernel =>
      cases result with
      | error error =>
          obtain ⟨_, rfl⟩ := Kernel.openFile_error opened
          dsimp only
          split
          · rfl
          · rfl
      | ok fd =>
          obtain ⟨_, _, rfl⟩ := Kernel.openFile_ok opened
          dsimp only
          split
          · rfl
          · rfl

/-- What a substitution opens is what its pipeline opens. -/
theorem opens_parseCommandSubstitution {position : Nat} {kernel : Kernel} {fd : Int × Int}
    (ended : substitutionEnd 0 rest = some position)
    (created : state.kernel.pipe outcomes = (some fd, kernel)) :
    (parseCommandSubstitution outcomes builder rest state).2.kernel.opens =
      (parseCommandCall outcomes (joinStrings (rest.take position) [' ']) true false
        (state.substituting kernel fd)).2.kernel.opens := by
  rw [parseCommandSubstitution_parsed ended created, opens_concludeSubstitution]

/-- What a pipe symbol opens is what the pipeline after it opens. -/
theorem opens_parseTokens_pipe (inside : ¬ (rest = [] ∨ before = []))
    (apart : containsString redirectionCaretSymbols (rest.headD []) = false)
    (free : builder.fds.stdout = uninitializedFd) :
    (parseTokens outcomes context builder before (pipeSymbol :: rest) state).2.kernel.opens =
      (parseCommandCall outcomes (joinStrings rest [' ']) context.insideSubstitution true
        state).2.kernel.opens := by
  rw [parseTokens_pipe inside apart, if_neg fun set => set free]
  cases parseCommandCall outcomes (joinStrings rest [' ']) context.insideSubstitution true state with
  | mk result state₁ =>
      cases result with
      | none => exact opens_abandonCommandCall _ _
      | some call =>
          dsimp only
          cases created : state₁.kernel.pipe outcomes with
          | mk made kernel =>
              have same := opens_pipe created
              cases made with
              | none =>
                  rw [linkPipelines_none created]
                  exact (opens_abandonCommandCall _ _).trans same
              | some fd =>
                  rw [linkPipelines_some created]
                  exact (opens_finishCommandCall _ _ _ _).trans same

end Opens

/-- The parser only adds to the opens. -/
theorem opens_grow (outcomes : FileOutcomes) :
    (∀ commandString insideSubstitution insidePipeline state, state.kernel.opens <+:
      (parseCommandCall outcomes commandString insideSubstitution insidePipeline
        state).2.kernel.opens) ∧
    (∀ context builder before rest state, state.kernel.opens <+:
      (parseTokens outcomes context builder before rest state).2.kernel.opens) ∧
    (∀ builder rest state, state.kernel.opens <+:
      (parseCommandSubstitution outcomes builder rest state).2.kernel.opens) := by
  apply parser_induction
  case blank =>
    intro commandString insideSubstitution insidePipeline state blank
    rw [parseCommandCall_blank blank]
  case string =>
    intro commandString insideSubstitution insidePipeline state nonblank ih
    rw [parseCommandCall_words nonblank]
    exact ih
  case nil =>
    intro context builder before state
    rw [parseTokens_nil, opens_finishCommandCall]
  case word =>
    intro context builder before token rest state ordinary ih
    rw [parseTokens_word ordinary]
    exact ih
  case misplaced =>
    intro context builder before token rest state symbol outside
    rw [parseTokens_misplaced symbol outside, opens_abandonCommandCall]
    exact List.prefix_refl _
  case adjacent =>
    intro context builder before token rest state symbol inside adjacent
    rw [parseTokens_adjacent symbol inside adjacent, opens_abandonCommandCall]
    exact List.prefix_refl _
  case start =>
    intro context builder before rest state inside apart body ih
    rw [parseTokens_substitution inside apart]
    cases parsed : parseCommandSubstitution outcomes builder rest state with
    | mk result state₁ =>
        rw [parsed] at body
        cases result with
        | none =>
            apply body.trans
            rw [opens_abandonCommandCall]
            exact List.prefix_refl _
        | some result => exact body.trans (ih _ _ _ _ parsed)
  case pipe =>
    intro context builder before rest state inside apart ih
    by_cases free : builder.fds.stdout = uninitializedFd
    · rw [opens_parseTokens_pipe inside apart free]
      exact ih free
    · rw [parseTokens_pipe inside apart, if_pos free, opens_abandonCommandCall]
      exact List.prefix_refl _
  case stray =>
    intro context builder before rest state inside apart
    rw [parseTokens_redirection (by decide) inside apart (by decide) (by decide),
      parseRedirections_end, opens_abandonCommandCall]
  case redirection =>
    intro context builder before symbol rest state inside apart ih
    have opened := opens_parseRedirections outcomes state builder.fds symbol (rest.headD [])
    rw [parseTokens_redirection_text inside apart]
    cases redirected : parseRedirections outcomes builder.fds symbol.text (rest.headD []) state with
    | mk result state₁ =>
        rw [redirected] at opened
        have more : state.kernel.opens <+: state₁.kernel.opens := ⟨_, opened.symm⟩
        cases result with
        | none =>
            apply more.trans
            rw [opens_abandonCommandCall]
        | some fds => exact more.trans (ih _ _ redirected)
  case body =>
    intro builder rest state ih
    cases ended : substitutionEnd 0 rest with
    | none =>
        rw [parseCommandSubstitution_unclosed ended]
    | some position =>
        cases created : state.kernel.pipe outcomes with
        | mk result kernel =>
            have same := opens_pipe created
            cases result with
            | none =>
                rw [parseCommandSubstitution_pipe_none ended created]
                exact ⟨[], by rw [List.append_nil]; exact same.symm⟩
            | some fd =>
                rw [opens_parseCommandSubstitution ended created, ← same]
                exact ih _ _ _ ended created

/-! ## Redirections that are reached -/

/-- Among the tokens of a stage after its first one a redirection comes before every error:
the pipelines and substitutions to its left are well formed and have no redirection, and
the brackets it stands in are closed. -/
inductive Reaches : List CString → Prop
  | redirection (symbol : Redirection) (file : Word) (rest : List CString) :
      Reaches (symbol.text :: file.text :: rest)
  | word (argument : Word) {rest : List CString} : Reaches rest → Reaches (argument.text :: rest)
  | pipe (name : Word) {rest : List CString} : Reaches rest →
      Reaches (pipeSymbol :: name.text :: rest)
  | inside (name : Word) {body : List CString} (rest : List CString) : Reaches body →
      substitutionEnd 0 (name.text :: body ++ commandSubstitutionEnd :: rest) =
        some (body.length + 1) →
      Reaches (commandSubstitutionStart :: (name.text :: body ++ commandSubstitutionEnd :: rest))
  | past (body : Syntax) {rest : List CString} : body.opens = [] → Reaches rest →
      Reaches (commandSubstitutionStart :: (body.words ++ commandSubstitutionEnd :: rest))

/-- In the words of a command string a redirection comes before every error. -/
def ReachesRedirection (words : List CString) : Prop :=
  ∃ (name : Word) (rest : List CString), words = name.text :: rest ∧ Reaches rest

section Silent

variable {outcomes : FileOutcomes}

/-- A pipeline that opens a file has a redirection before every error. -/
def CallReaches (outcomes : FileOutcomes) (commandString : CString)
    (insideSubstitution insidePipeline : Bool) (state : ParserState) : Prop :=
  Ready insideSubstitution state →
    (parseCommandCall outcomes commandString insideSubstitution insidePipeline
      state).2.kernel.opens = state.kernel.opens ∨
    ReachesRedirection (words commandSeparator commandString)

def TokensReach (outcomes : FileOutcomes) (context : CallContext) (builder : CommandCallBuilder)
    (before : List (Option CString)) (rest : List CString) (state : ParserState) : Prop :=
  Ready context.insideSubstitution state → (∀ token ∈ rest, token ≠ [] ∧ ' ' ∉ token) →
    (parseTokens outcomes context builder before rest state).2.kernel.opens = state.kernel.opens ∨
    if before = [] then ReachesRedirection rest else Reaches rest

def SubstitutionReaches (outcomes : FileOutcomes) (builder : CommandCallBuilder)
    (rest : List CString) (state : ParserState) : Prop :=
  state.kernel.Valid → state.lastParsedCommandCall = none →
    (∀ token ∈ rest, token ≠ [] ∧ ' ' ∉ token) →
    (parseCommandSubstitution outcomes builder rest state).2.kernel.opens = state.kernel.opens ∨
    Reaches (commandSubstitutionStart :: rest)

theorem substitutionReaches {builder : CommandCallBuilder} {rest : List CString}
    {state : ParserState}
    (call : ∀ position fd kernel, substitutionEnd 0 rest = some position →
      state.kernel.pipe outcomes = (some fd, kernel) →
      CallReaches outcomes (joinStrings (rest.take position) [' ']) true false
        (state.substituting kernel fd)) :
    SubstitutionReaches outcomes builder rest state := by
  intro valid noLast clean
  cases ended : substitutionEnd 0 rest with
  | none =>
      rw [parseCommandSubstitution_unclosed ended]
      exact .inl rfl
  | some position =>
      cases created : state.kernel.pipe outcomes with
      | mk result kernel =>
          have same := opens_pipe created
          cases result with
          | none =>
              rw [parseCommandSubstitution_pipe_none ended created]
              exact .inl same
          | some fd =>
              have ready : Ready true (state.substituting kernel fd) :=
                ⟨valid.pipe created, noLast, fun _ => rfl⟩
              rw [opens_parseCommandSubstitution ended created]
              apply (call _ _ _ ended created ready).imp
              · exact fun kept => kept.trans same
              · intro reaches
                rw [words_joined fun token member => clean token (List.mem_of_mem_take member)] at reaches
                obtain ⟨name, body, taken, reaches⟩ := reaches
                have split := substitutionEnd_split ended
                have length : position = body.length + 1 := by
                  have inside : position < rest.length := by
                    have lengths := congrArg List.length split
                    simp only [List.length_append, List.length_take, List.length_cons,
                      List.length_drop] at lengths
                    omega
                  have lengths := congrArg List.length taken
                  rw [List.length_take, List.length_cons] at lengths
                  omega
                rw [taken] at split
                rw [split] at ended ⊢
                exact .inside name _ reaches (length ▸ ended)

theorem tokensReach_start {context : CallContext} {builder : CommandCallBuilder}
    {before : List (Option CString)} {rest : List CString} {state : ParserState}
    (inside : ¬ (rest = [] ∨ before = []))
    (apart : containsString redirectionCaretSymbols (rest.headD []) = false)
    (body : SubstitutionReaches outcomes builder rest state)
    (ih : ∀ builder' path position state₁,
      parseCommandSubstitution outcomes builder rest state =
        (some (builder', path, position), state₁) →
      TokensReach outcomes context builder'
        (before ++ none :: List.replicate position none ++ [some path]) (rest.drop (position + 1))
        state₁) :
    TokensReach outcomes context builder before (commandSubstitutionStart :: rest) state := by
  intro ready clean
  have clean' : ∀ token ∈ rest, token ≠ [] ∧ ' ' ∉ token :=
    fun token member => clean token (.tail _ member)
  have started : before ≠ [] := fun none => inside (.inr none)
  rw [if_neg started, parseTokens_substitution inside apart]
  cases parsed : parseCommandSubstitution outcomes builder rest state with
  | mk result state₁ =>
      have body := body ready.valid ready.lastCall clean'
      rw [parsed] at body
      cases result with
      | none =>
          apply body.imp_left
          intro kept
          exact (opens_abandonCommandCall _ _).trans kept
      | some result =>
          obtain ⟨builder', path, position⟩ := result
          apply body.elim _ .inr
          intro kept
          obtain ⟨link, tree, read⟩ := (specifications outcomes).2.2 builder rest state _ _ _ _
            ready.valid ready.lastCall clean' parsed
          have silent : tree.erase.opens = [] := by
            have made := read.wires.opensMade
            rw [show state₁.kernel.opens = state.kernel.opens from kept] at made
            rw [Pipeline.opens_erase]
            exact List.self_eq_append_right.mp made
          have ready₁ : Ready context.insideSubstitution state₁ :=
            ⟨read.wires.valid, read.lastCall, fun _ => read.lastCallSubstitution⟩
          have tail := ih _ _ _ _ parsed ready₁ fun token member =>
            clean' token (List.mem_of_mem_drop member)
          rw [if_neg (by simp)] at tail
          apply tail.imp
          · exact fun same => same.trans kept
          · intro reaches
            rw [read.split, ← Pipeline.words_erase]
            exact .past _ silent reaches

/-- A parse opens a file only if a redirection comes before every error. -/
theorem allReach (outcomes : FileOutcomes) :
    (∀ commandString insideSubstitution insidePipeline state,
      CallReaches outcomes commandString insideSubstitution insidePipeline state) ∧
    (∀ context builder before rest state, TokensReach outcomes context builder before rest state) ∧
    (∀ builder rest state, SubstitutionReaches outcomes builder rest state) := by
  apply parser_induction
  case blank =>
    intro commandString insideSubstitution insidePipeline state blank _
    rw [parseCommandCall_blank blank]
    exact .inl rfl
  case string =>
    intro commandString insideSubstitution insidePipeline state nonblank ih ready
    rw [parseCommandCall_words nonblank]
    exact ih ready (words_clean commandSeparator_single commandString)
  case nil =>
    intro context builder before state _ _
    rw [parseTokens_nil]
    exact .inl (opens_finishCommandCall _ _ _ _)
  case word =>
    intro context builder before token rest state ordinary ih ready clean
    rw [parseTokens_word ordinary]
    apply (ih ready fun token member => clean token (.tail _ member)).imp_right
    intro reaches
    rw [if_neg (by simp)] at reaches
    split
    · exact ⟨⟨token, ordinary⟩, rest, rfl, reaches⟩
    · exact .word ⟨token, ordinary⟩ reaches
  case misplaced =>
    intro context builder before token rest state symbol outside _ _
    rw [parseTokens_misplaced symbol outside]
    exact .inl (opens_abandonCommandCall _ _)
  case adjacent =>
    intro context builder before token rest state symbol inside adjacent _ _
    rw [parseTokens_adjacent symbol inside adjacent]
    exact .inl (opens_abandonCommandCall _ _)
  case start =>
    intro context builder before rest state inside apart body ih
    exact tokensReach_start inside apart body ih
  case pipe =>
    intro context builder before rest state inside apart ih ready clean
    have clean' : ∀ token ∈ rest, token ≠ [] ∧ ' ' ∉ token :=
      fun token member => clean token (.tail _ member)
    by_cases free : builder.fds.stdout = uninitializedFd
    · rw [opens_parseTokens_pipe inside apart free, if_neg fun none => inside (.inr none)]
      apply (ih free ready).imp_right
      intro reaches
      rw [words_joined clean'] at reaches
      obtain ⟨name, rest', rfl, reaches⟩ := reaches
      exact .pipe name reaches
    · rw [parseTokens_pipe inside apart, if_pos free]
      exact .inl (opens_abandonCommandCall _ _)
  case stray =>
    intro context builder before rest state inside apart _ _
    rw [parseTokens_redirection (by decide) inside apart (by decide) (by decide),
      parseRedirections_end]
    exact .inl (opens_abandonCommandCall _ _)
  case redirection =>
    intro context builder before symbol rest state inside apart _ _ _
    rw [if_neg fun none => inside (.inr none)]
    cases rest with
    | nil => exact absurd (.inl rfl) inside
    | cons file rest => exact .inr (.redirection symbol ⟨file, apart⟩ rest)
  case body =>
    intro builder rest state ih
    exact substitutionReaches ih

end Silent

/-! ## Redirections that are opened -/

section Opened

variable {outcomes : FileOutcomes} {context : CallContext} {builder : CommandCallBuilder}
  {before : List (Option CString)} {rest : List CString} {state : ParserState}

/-- The token loop, at `rest` with no stream redirected yet, opens a file. -/
def OpensFrom (outcomes : FileOutcomes) (rest : List CString) : Prop :=
  ∀ context builder before state, Ready context.insideSubstitution state →
    builder.fds = newCommandCallBuilder.fds → before ≠ [] →
    state.kernel.opens.length <
      (parseTokens outcomes context builder before rest state).2.kernel.opens.length

theorem opensFrom_word {token : CString}
    (ordinary : containsString redirectionCaretSymbols token = false)
    (ih : OpensFrom outcomes rest) : OpensFrom outcomes (token :: rest) := by
  intro context builder before state ready fds _
  rw [parseTokens_word ordinary]
  exact ih context builder _ state ready fds (by simp)

theorem opensFrom_redirection (symbol : Redirection) (file : Word) :
    OpensFrom outcomes (symbol.text :: file.text :: rest) := by
  intro context builder before state _ _ started
  have inside : ¬ (file.text :: rest = [] ∨ before = []) := by simp [started]
  have opened := opens_parseRedirections outcomes state builder.fds symbol file.text
  rw [parseTokens_redirection_text inside file.ordinary, List.headD_cons]
  cases redirected : parseRedirections outcomes builder.fds symbol.text file.text state with
  | mk result state₁ =>
      rw [redirected] at opened
      have more : state.kernel.opens.length < state₁.kernel.opens.length := by
        rw [show state₁.kernel.opens = _ from opened, List.length_append, List.length_singleton]
        omega
      cases result with
      | none =>
          dsimp only
          rw [opens_abandonCommandCall]
          exact more
      | some fds =>
          exact Nat.lt_of_lt_of_le more ((opens_grow outcomes).2.1 _ _ _ _ state₁).length_le

/-- A pipeline whose words open a file. -/
theorem parseCommandCall_opens {name : Word} {insideSubstitution insidePipeline : Bool}
    (clean : ∀ token ∈ name.text :: rest, token ≠ [] ∧ ' ' ∉ token)
    (ready : Ready insideSubstitution state) (ih : OpensFrom outcomes rest) :
    state.kernel.opens.length < (parseCommandCall outcomes (joinStrings (name.text :: rest) [' '])
      insideSubstitution insidePipeline state).2.kernel.opens.length := by
  rw [parseCommandCall_words (by rw [words_joined clean]; simp), words_joined clean,
    parseTokens_word name.ordinary]
  exact ih _ newCommandCallBuilder _ state ready rfl (by simp)

mutual

/-- A tree without redirections has none in a wrong place. -/
theorem Pipeline.placed_of_silent : ∀ {input output : Bool} (tree : Syntax), tree.opens = [] →
    tree.Placed input output
  | _, _, .mk _ items next, silent => by
      obtain ⟨items', next'⟩ := List.append_eq_nil_iff.mp silent
      exact ⟨Items.placed_of_silent items items', Next.placed_of_silent next next'⟩

theorem Items.placed_of_silent : ∀ {input output : Bool} (items : Items Labels.plain),
    items.opens = [] → items.Placed input output
  | _, _, .nil, _ => trivial
  | _, _, .word _ rest, silent => Items.placed_of_silent rest silent
  | _, _, .redirection _ _ _ _, silent => by cases silent
  | _, _, .substitution _ body rest, silent => by
      obtain ⟨body', rest'⟩ := List.append_eq_nil_iff.mp silent
      exact ⟨Pipeline.placed_of_silent body body', Items.placed_of_silent rest rest'⟩

theorem Next.placed_of_silent : ∀ {output : Bool} (next : Next Labels.plain), next.opens = [] →
    next.Placed output
  | _, .last, _ => trivial
  | _, .pipe _ rest, silent => Pipeline.placed_of_silent rest silent

end

/-- A substitution without redirections is passed. -/
theorem opensFrom_past {body : Syntax} (pipes : ∀ serial, outcomes.pipeSucceeds serial = true)
    (silent : body.opens = [])
    (clean : ∀ token ∈ body.words ++ commandSubstitutionEnd :: rest, token ≠ [] ∧ ' ' ∉ token)
    (ih : OpensFrom outcomes rest) :
    OpensFrom outcomes (commandSubstitutionStart :: (body.words ++ commandSubstitutionEnd :: rest)) := by
  intro context builder before state ready fds started
  have succeed : ∀ state : ParserState, ∀ count, Succeed outcomes state body.opens.length count := by
    intro state count
    rw [silent]
    exact ⟨fun index bound => absurd bound (Nat.not_lt_zero _), fun _ _ => pipes _⟩
  have clean' : ∀ token ∈ body.words, token ≠ [] ∧ ' ' ∉ token :=
    fun token member => clean token (List.mem_append_left _ member)
  obtain ⟨builder', path, position, state₁, substituted⟩ : ∃ builder' path position state',
      parseCommandSubstitution outcomes builder (body.words ++ commandSubstitutionEnd :: rest) state =
        (some (builder', path, position), state') :=
    parseCommandSubstitution_of_accepted ready.valid ready.lastCall (Pipeline.placed_of_silent body silent) clean'
      (fun state ready succeed => Pipeline.accepted body (words_joined clean')
        (Pipeline.placed_of_silent body silent) ready succeed (.inl rfl))
      (succeed state _)
  obtain ⟨link, tree, read⟩ := (specifications outcomes).2.2 builder _ state _ _ _ _ ready.valid
    ready.lastCall clean substituted
  obtain ⟨same, after⟩ := Pipeline.words_injective body tree.erase
    (.inr ⟨rest, rfl⟩) (.inr ⟨_, rfl⟩) (by rw [Pipeline.words_erase]; exact read.split)
  have tail : (body.words ++ commandSubstitutionEnd :: rest).drop (position + 1) = rest :=
    (List.cons.inj after).2.symm
  have kept : state₁.kernel.opens = state.kernel.opens := by
    rw [read.wires.opensMade, ← Pipeline.opens_erase, ← same, silent, List.append_nil]
  obtain ⟨_, ordinary⟩ := body.words_head_ordinary (commandSubstitutionEnd :: rest)
  have inside : ¬ (body.words ++ commandSubstitutionEnd :: rest = [] ∨ before = []) := by
    simp [started]
  rw [parseTokens_substitution inside ordinary, substituted, ← kept]
  dsimp only
  rw [tail]
  apply ih
  · exact ⟨read.wires.valid, read.lastCall, fun _ => read.lastCallSubstitution⟩
  · rw [read.builder]
    exact fds
  · simp

theorem opensFrom_inside {name : Word} {body : List CString}
    (pipes : ∀ serial, outcomes.pipeSucceeds serial = true)
    (ended : substitutionEnd 0 (name.text :: body ++ commandSubstitutionEnd :: rest) =
      some (body.length + 1))
    (clean : ∀ token ∈ name.text :: body, token ≠ [] ∧ ' ' ∉ token)
    (ih : OpensFrom outcomes body) :
    OpensFrom outcomes
      (commandSubstitutionStart :: (name.text :: body ++ commandSubstitutionEnd :: rest)) := by
  intro context builder before state ready _ started
  have inside : ¬ (name.text :: body ++ commandSubstitutionEnd :: rest = [] ∨ before = []) := by
    simp [started]
  have succeed : Succeed outcomes state 0 (1 + 0) :=
    ⟨fun index bound => absurd bound (Nat.not_lt_zero _), fun _ _ => pipes _⟩
  obtain ⟨fd, kernel, created⟩ := succeed.pipe
  have ready₁ : Ready true (state.substituting kernel fd) :=
    ⟨ready.valid.pipe created, ready.lastCall, fun _ => rfl⟩
  have opened : (parseCommandSubstitution outcomes builder _ state).2.kernel.opens = _ :=
    opens_parseCommandSubstitution ended created
  rw [show (name.text :: body ++ commandSubstitutionEnd :: rest).take (body.length + 1) =
    name.text :: body by simp] at opened
  have more : _ < (parseCommandCall outcomes (joinStrings (name.text :: body) [' ']) true false
      _).2.kernel.opens.length := parseCommandCall_opens clean ready₁ ih
  rw [← opened, show (state.substituting kernel fd).kernel.opens = state.kernel.opens from
    opens_pipe created] at more
  rw [parseTokens_substitution inside name.ordinary]
  cases parsed : parseCommandSubstitution outcomes builder
      (name.text :: body ++ commandSubstitutionEnd :: rest) state with
  | mk result state₁ =>
      rw [parsed] at more
      cases result with
      | none =>
          dsimp only
          rw [opens_abandonCommandCall]
          exact more
      | some result =>
          exact Nat.lt_of_lt_of_le more ((opens_grow outcomes).2.1 _ _ _ _ state₁).length_le

theorem Reaches.opensFrom (pipes : ∀ serial, outcomes.pipeSucceeds serial = true)
    (reaches : Reaches rest) (clean : ∀ token ∈ rest, token ≠ [] ∧ ' ' ∉ token) :
    OpensFrom outcomes rest := by
  induction reaches with
  | redirection symbol file rest => exact opensFrom_redirection symbol file
  | word argument _ ih =>
      exact opensFrom_word argument.ordinary (ih fun token member => clean token (.tail _ member))
  | @pipe name rest _ ih =>
      intro context builder before state ready fds started
      have inside : ¬ (name.text :: rest = [] ∨ before = []) := by simp [started]
      have free : builder.fds.stdout = uninitializedFd := by rw [fds]; rfl
      rw [opens_parseTokens_pipe inside name.ordinary free]
      apply parseCommandCall_opens (fun token member => clean token (.tail _ member)) ready
      exact ih fun token member => clean token (.tail _ (.tail _ member))
  | inside name rest _ ended ih =>
      apply opensFrom_inside pipes ended
      · exact fun token member => clean token (.tail _ (List.mem_append_left _ member))
      · exact ih fun token member => clean token (.tail _ (List.mem_append_left _ (.tail _ member)))
  | past body silent _ ih =>
      apply opensFrom_past pipes silent fun token member => clean token (.tail _ member)
      apply ih
      exact fun token member => clean token (.tail _ (List.mem_append_right _ (.tail _ member)))

end Opened

/-! ## Malformed strings -/

section Malformed

variable {outcomes : FileOutcomes} {commandString : CString} {state : ParserState}

/-- What `parse_command` opens is what its string opens. -/
theorem opens_parseCommand (nonblank : newEmptyCommand commandString = true) :
    (parseCommand outcomes commandString state).2.kernel.opens =
      (parseCommandCall outcomes commandString false false state.entering).2.kernel.opens := by
  have abandoned : ∀ state : ParserState, (abandonCommand state).2.kernel.opens =
      state.kernel.opens := by
    intro state
    exact (opens_closePipes _ _).trans (opens_closeUnusedFileDescriptors _ _ _)
  rw [parseCommand_eq nonblank]
  cases parseCommandCall outcomes commandString false false state.entering with
  | mk result state₁ =>
      cases last : state₁.lastParsedCommandCall with
      | none =>
          cases result with
          | none => simp only [concludeCommand, last, abandoned]
          | some call =>
              simp only [concludeCommand, last, abandoned]
              rfl
      | some ref =>
          cases result with
          | none =>
              simp only [concludeCommand, last, abandoned]
              rfl
          | some call =>
              simp only [concludeCommand, last]
              rfl

/-- A string opens no file unless a redirection comes before every error. -/
theorem parseCommand_opens_nothing (valid : state.kernel.Valid)
    (silent : ¬ ReachesRedirection (runs commandString)) :
    (parseCommand outcomes commandString state).2.kernel.opens = state.kernel.opens := by
  cases nonblank : newEmptyCommand commandString with
  | false => rw [parseCommand_blank nonblank]
  | true =>
      rw [opens_parseCommand nonblank]
      rw [← words_commandSeparator] at silent
      exact ((allReach outcomes).1 commandString false false state.entering
        (ready_entering valid)).resolve_right silent

/-- A string with a redirection before every error opens its file. -/
theorem parseCommand_opens_something (pipes : ∀ serial, outcomes.pipeSucceeds serial = true)
    (valid : state.kernel.Valid) (reaches : ReachesRedirection (runs commandString)) :
    (parseCommand outcomes commandString state).2.kernel.opens ≠ state.kernel.opens := by
  rw [← words_commandSeparator] at reaches
  obtain ⟨name, rest, split, reaches⟩ := reaches
  have clean := words_clean commandSeparator_single commandString
  have nonempty : words commandSeparator commandString ≠ [] := by simp [split]
  rw [opens_parseCommand (newEmptyCommand_of_words nonempty), parseCommandCall_words nonempty, split,
    parseTokens_word name.ordinary]
  rw [split] at clean
  intro same
  have more := reaches.opensFrom pipes (fun token member => clean token (.tail _ member))
    { commandString, insideSubstitution := false, insidePipeline := false } newCommandCallBuilder
    ([] ++ [some name.text]) state.entering (ready_entering valid) rfl (by simp)
  rw [same] at more
  exact absurd more (Nat.lt_irrefl _)

/-- A malformed string is rejected whatever the file system contains, and without opening a file
exactly when no redirection of it comes before every error. -/
theorem malformed_string_rejected
    (malformed : ¬ ∃ tree : Syntax, tree.words = runs commandString ∧ tree.Placed true true) :
    (∀ outcomes state, state.kernel.Valid →
      (parseCommand outcomes commandString state).1 = none) ∧
    ((∀ outcomes state, state.kernel.Valid →
        (parseCommand outcomes commandString state).2.kernel.opens = state.kernel.opens) ↔
      ¬ ReachesRedirection (runs commandString)) := by
  refine ⟨?_, ?_, ?_⟩
  · intro outcomes state valid
    cases parsed : parseCommand outcomes commandString state with
    | mk result state' =>
        cases result with
        | none => rfl
        | some command =>
            obtain ⟨tree, tokens, placed, _⟩ :=
              (parseCommand_accepts_iff valid commandString).mp ⟨command, state', parsed⟩
            exact absurd ⟨tree, tokens, placed⟩ malformed
  · intro keeps reaches
    have pipes : ∀ serial, FileOutcomes.allSucceed.pipeSucceeds serial = true := fun _ => rfl
    exact parseCommand_opens_something pipes valid_startedShell reaches
      (keeps .allSucceed startedShell valid_startedShell)
  · intro silent outcomes state valid
    exact parseCommand_opens_nothing valid silent

/-- The pipe symbol that ends `a > f |` is found when `f` has been created. -/
theorem malformed_string_creates_file :
    (¬ ∃ tree : Syntax, tree.words = runs "a > f |".toList ∧ tree.Placed true true) ∧
      (parseCommand .allSucceed "a > f |".toList startedShell).2.kernel.opens =
        [("f".toList, .createNew)] := by
  refine ⟨?_, by decide +kernel⟩
  intro derives
  obtain ⟨tree, tokens, placed⟩ := derives
  obtain ⟨command, state', accepted⟩ : ∃ command state',
      parseCommand .allSucceed "a > f |".toList startedShell = (some command, state') :=
    (parseCommand_accepts_iff valid_startedShell _).mpr
      ⟨tree, tokens, placed, ⟨fun _ _ => rfl, fun _ _ => rfl⟩, .inr (.inl rfl)⟩
  have rejected : (parseCommand .allSucceed "a > f |".toList startedShell).1 = none := by
    decide +kernel
  rw [accepted] at rejected
  cases rejected

theorem missing_name_opens_nothing :
    (parseCommand .allSucceed "< f".toList startedShell).1 = none ∧
      (parseCommand .allSucceed "< f".toList startedShell).2.kernel.opens = [] := by
  have first : runs "< f".toList = ["<".toList, "f".toList] := by decide
  have unnamed : ∀ name : Word, "<".toList ≠ name.text := by
    intro name same
    have ordinary := name.ordinary
    rw [← same] at ordinary
    exact absurd ordinary (by decide)
  have malformed : ¬ ∃ tree : Syntax, tree.words = runs "< f".toList ∧ tree.Placed true true := by
    intro derives
    obtain ⟨⟨name, items, next⟩, tokens, _⟩ := derives
    rw [first, Pipeline.words_mk] at tokens
    exact unnamed name (List.cons.inj tokens).1.symm
  have rejected := malformed_string_rejected malformed
  have silent : ¬ ReachesRedirection (runs "< f".toList) := by
    intro reaches
    obtain ⟨name, rest, tokens, _⟩ := reaches
    rw [first] at tokens
    exact unnamed name (List.cons.inj tokens).1
  exact ⟨rejected.1 .allSucceed startedShell valid_startedShell,
    rejected.2.mpr silent .allSucceed startedShell valid_startedShell⟩

end Malformed

end Jsh
