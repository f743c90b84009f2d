import Jsh.Acceptance

/-!
# Freed calls

`parse_command_substitution` refuses a substitution whose last stage redirects its
standard output: it frees the call of the first stage, and then closes what the
descriptor fields of that call hold. The strings on which the parser comes to such a
substitution.
-/

set_option autoImplicit false

namespace Jsh

section Items

variable {labels : Labels}

/-- Whether a stage has redirections of its own. -/
def Items.redirects : Items labels → Bool
  | .nil => false
  | .word _ rest => rest.redirects
  | .redirection _ _ _ _ => true
  | .substitution _ _ rest => rest.redirects

/-- The items of the first stage. -/
def Pipeline.firstItems : Pipeline labels → Items labels
  | .mk _ items _ => items

theorem Items.redirects_erase (items : Items labels) :
    items.erase.redirects = items.redirects := by
  cases items with
  | nil => rfl
  | word _ rest => exact Items.redirects_erase rest
  | redirection _ _ _ _ => rfl
  | substitution _ _ rest => exact Items.redirects_erase rest

theorem Pipeline.firstItems_erase (tree : Pipeline labels) :
    tree.erase.firstItems = tree.firstItems.erase := by
  cases tree with
  | mk name items next => rw [Pipeline.erase, Pipeline.firstItems, Pipeline.firstItems]

end Items

/-- A stage holds descriptors of its own exactly when it has redirections. -/
theorem Items.lastRedirection_eq_none_iff (items : Items Labels.wired) :
    (∀ stream, items.lastRedirection stream = none) ↔ items.redirects = false := by
  cases items with
  | nil => simp [Items.lastRedirection, Items.redirects]
  | word _ rest => exact Items.lastRedirection_eq_none_iff rest
  | redirection symbol _ _ _ =>
      simp only [Items.redirects, Bool.true_eq_false, iff_false, not_forall]
      exact ⟨symbol.stream, by simp [Items.lastRedirection]⟩
  | substitution _ _ rest => exact Items.lastRedirection_eq_none_iff rest

/-- On these tokens of a stage the parser comes to a substitution whose first call it
frees and reads, after `opens` calls of `open` and `pipes` calls of `pipe`. `own` tells
whether that call has redirections of its own, `redirected` whether the stage has
redirected its standard output before these tokens. -/
inductive ComesToFreed (own : Bool) : Bool → List CString → Nat → Nat → Prop where
  | word {redirected : Bool} {argument : Word} {rest : List CString} {opens pipes : Nat} :
      ComesToFreed own redirected rest opens pipes →
      ComesToFreed own redirected (argument.text :: rest) opens pipes
  | redirection {redirected : Bool} {symbol : Redirection} {file : Word} {rest : List CString}
      {opens pipes : Nat} :
      ComesToFreed own (redirected || decide (symbol.stream = .stdout)) rest opens pipes →
      ComesToFreed own redirected (symbol.text :: file.text :: rest) (1 + opens) pipes
  | substitution {redirected : Bool} {body : Syntax} {rest : List CString} {opens pipes : Nat} :
      body.Placed true false → ComesToFreed own redirected rest opens pipes →
      ComesToFreed own redirected
        (commandSubstitutionStart :: (body.words ++ commandSubstitutionEnd :: rest))
        (body.opens.length + opens) (1 + body.links.length + pipes)
  | freed {redirected : Bool} {body : Syntax} {after : List CString} :
      body.Placed true true → ¬ body.Placed true false → body.firstItems.redirects = own →
      ComesToFreed own redirected
        (commandSubstitutionStart :: (body.words ++ commandSubstitutionEnd :: after))
        body.opens.length (1 + body.links.length)
  | inside {redirected : Bool} {name : Word} {inner after : List CString} {opens pipes : Nat} :
      substitutionEnd 0 (name.text :: inner ++ commandSubstitutionEnd :: after) =
        some (inner.length + 1) →
      ComesToFreed own false inner opens pipes →
      ComesToFreed own redirected
        (commandSubstitutionStart :: (name.text :: inner ++ commandSubstitutionEnd :: after)) opens
        (1 + pipes)
  | pipe {name : Word} {rest : List CString} {opens pipes : Nat} :
      ComesToFreed own false rest opens pipes →
      ComesToFreed own false (pipeSymbol :: name.text :: rest) opens pipes

/-- The token loop comes to a freed call, the calls of `open` and `pipe` before it
succeeding. -/
def TokensReadFreed (outcomes : FileOutcomes) (state : ParserState) (redirected : Bool)
    (tokens : List CString) (own : Bool) : Prop :=
  ∃ opens pipes, ComesToFreed own redirected tokens opens pipes ∧
    Succeed outcomes state opens pipes

/-- The parse of a string with these words reads a call that has been freed. -/
def ReadsFreed (outcomes : FileOutcomes) (state : ParserState) (tokens : List CString)
    (own : Bool) : Prop :=
  ∃ (name : Word) (rest : List CString), tokens = name.text :: rest ∧
    TokensReadFreed outcomes state false rest own

section Reading

variable {outcomes : FileOutcomes} {state state' : ParserState} {redirected own : Bool}
  {tokens rest : List CString}

theorem TokensReadFreed.word {token : CString}
    (ordinary : containsString redirectionCaretSymbols token = false)
    (reads : TokensReadFreed outcomes state redirected rest own) :
    TokensReadFreed outcomes state redirected (token :: rest) own := by
  obtain ⟨opens, pipes, comes, succeed⟩ := reads
  exact ⟨opens, pipes, @ComesToFreed.word _ _ ⟨token, ordinary⟩ _ _ _ comes, succeed⟩

/-- The same after a part of a tree has been read. -/
theorem Succeed.after {links : List Link} {opened : List (CString × OpenMode)}
    {labels closed came : List Descriptor} {opens pipes : Nat}
    (wires : Wires outcomes state state' links opened labels closed came)
    (later : Succeed outcomes state' opens pipes) :
    Succeed outcomes state (opened.length + opens) (links.length + pipes) where
  opens index bound := by
    by_cases early : index < opened.length
    · exact wires.succeed.opens index early
    · have succeeds := later.opens (index - opened.length) (by omega)
      rw [wires.opensMade, List.length_append] at succeeds
      rwa [show state.kernel.opens.length + opened.length + (index - opened.length) =
        state.kernel.opens.length + index by omega] at succeeds
  pipes index bound := by
    by_cases early : index < links.length
    · exact wires.succeed.pipes index early
    · have succeeds := later.pipes (index - links.length) (by omega)
      rw [wires.pipes] at succeeds
      rwa [show state.kernel.pipes + links.length + (index - links.length) =
        state.kernel.pipes + index by omega] at succeeds

theorem Succeed.afterPipe {kernel : Kernel} {fd : Int × Int} {opens pipes : Nat}
    (created : state.kernel.pipe outcomes = (some fd, kernel))
    (later : Succeed outcomes (state.substituting kernel fd) opens pipes) :
    Succeed outcomes state opens (1 + pipes) := by
  obtain ⟨succeeds, _, _, rfl⟩ := Kernel.pipe_some created
  constructor
  case opens => exact later.opens
  case pipes =>
    intro index bound
    cases index with
    | zero => exact succeeds
    | succ index =>
        have next := later.pipes index (by omega)
        rwa [show (state.substituting _ fd).kernel.pipes + index =
          state.kernel.pipes + (index + 1) from by
            simp only [ParserState.substituting]
            omega] at next

/-- A redirection that succeeds makes one call of `open`. -/
theorem redirectStream_opened {stream : Stream} {filename : CString} {mode : OpenMode}
    {complaint : CString → Option CString} {fds fds' : Fds}
    (opened : redirectStream outcomes stream mode complaint fds filename state =
      (some fds', state')) :
    outcomes.openError state.kernel.opens.length = none ∧
      state'.kernel.opens = state.kernel.opens ++ [(filename, mode)] ∧
      state'.kernel.pipes = state.kernel.pipes ∧
      ∃ fd, fd ≠ uninitializedFd ∧ fds' = fds.set stream fd := by
  unfold redirectStream at opened
  cases opening : state.kernel.openFile outcomes filename mode with
  | mk result kernel =>
      cases result with
      | error error => cases complains : complaint error <;> simp [opening, complains] at opened
      | ok fd =>
          obtain ⟨succeeds, chosen, rfl⟩ := Kernel.openFile_ok opening
          simp only [opening, Prod.mk.injEq, Option.some.injEq] at opened
          obtain ⟨rfl, rfl⟩ := opened
          refine ⟨succeeds, ?_, ?_, fd, ?_, rfl⟩
          · dsimp only
            split <;> rfl
          · dsimp only
            split <;> rfl
          · have := lowestFree_nonneg state.kernel.numbers
            simp only [uninitializedFd]
            omega

theorem TokensReadFreed.redirection {symbol : Redirection} {file : CString} {mode : OpenMode}
    {complaint : CString → Option CString} {fds fds' : Fds}
    (ordinary : containsString redirectionCaretSymbols file = false)
    (opened : redirectStream outcomes symbol.stream mode complaint fds file state =
      (some fds', state'))
    (reads : TokensReadFreed outcomes state' (decide (fds'.stdout ≠ uninitializedFd)) rest own) :
    TokensReadFreed outcomes state (decide (fds.stdout ≠ uninitializedFd))
      (symbol.text :: file :: rest) own := by
  obtain ⟨opens, pipes, comes, succeed⟩ := reads
  obtain ⟨succeeds, opensMade, samePipes, fd, set, rfl⟩ := redirectStream_opened opened
  refine ⟨1 + opens, pipes, @ComesToFreed.redirection _ _ _ ⟨file, ordinary⟩ _ _ _ ?_,
    fun index bound => ?_, fun index bound => samePipes ▸ succeed.pipes index bound⟩
  · have held : decide ((fds.set symbol.stream fd).stdout ≠ uninitializedFd) =
        (decide (fds.stdout ≠ uninitializedFd) || decide (symbol.stream = .stdout)) := by
      by_cases unset : fds.stdout = uninitializedFd <;> cases symbol.stream <;>
        simp [Fds.set, set, unset]
    exact held ▸ comes
  · cases index with
    | zero => exact succeeds
    | succ index =>
        have next := succeed.opens index (by omega)
        rwa [opensMade, List.length_append, List.length_singleton, Nat.add_assoc,
          Nat.add_comm 1 index] at next

theorem TokensReadFreed.substitution {builder builder' : CommandCallBuilder} {path : CString}
    {position : Nat} {link : Link} {body : Pipeline Labels.wired}
    (read : SubstitutionRead outcomes builder builder' rest path position state state' link body)
    (reads : TokensReadFreed outcomes state' redirected (rest.drop (position + 1)) own) :
    TokensReadFreed outcomes state redirected (commandSubstitutionStart :: rest) own := by
  obtain ⟨opens, pipes, comes, succeed⟩ := reads
  have all := Succeed.after read.wires succeed
  have comes' := ComesToFreed.substitution ((Pipeline.placed_erase body).mpr read.placed) comes
  rw [Pipeline.words_erase, ← read.split, Pipeline.opens_erase, Pipeline.length_links_erase,
    Nat.add_comm 1] at comes'
  exact ⟨_, _, comes', all⟩

/-- The tokens between the brackets of a substitution. -/
theorem substitutionEnd_take {position : Nat} (ended : substitutionEnd 0 rest = some position) :
    (rest.take position).length = position := by
  have inside : rest.drop position ≠ [] := by
    have split := congrArg List.length (substitutionEnd_split ended)
    simp only [List.length_append, List.length_cons, List.length_take, List.length_drop] at split
    rw [Ne, List.drop_eq_nil_iff]
    omega
  rw [List.length_take]
  rw [Ne, List.drop_eq_nil_iff] at inside
  omega

theorem TokensReadFreed.freed {position : Nat} {kernel : Kernel} {fd : Int × Int} {ref : CallRef}
    {body : Pipeline Labels.wired} (clean : ∀ token ∈ rest, token ≠ [] ∧ ' ' ∉ token)
    (ended : substitutionEnd 0 rest = some position)
    (created : state.kernel.pipe outcomes = (some fd, kernel))
    (read : CallRead outcomes (joinStrings (rest.take position) [' ']) true false
      (state.substituting kernel fd) state' ref body)
    (redirects : (body.lastCall (joinStrings (rest.take position) [' ']) none none).stdout ≠
      stdoutFileno) :
    TokensReadFreed outcomes state redirected (commandSubstitutionStart :: rest)
      body.firstItems.redirects := by
  have tokens : body.words = rest.take position := by
    rw [read.words, words_joined fun token member => clean token (List.mem_of_mem_take member)]
  have wide : body.erase.Placed true true := (Pipeline.placed_erase body).mpr read.placed
  have refused : ¬ body.erase.Placed true false := fun narrow =>
    redirects (Pipeline.lastCall_stdout _ none body ((Pipeline.placed_erase body).mp narrow))
  have comes := @ComesToFreed.freed body.firstItems.redirects redirected body.erase
    (rest.drop (position + 1)) wide refused
    (by rw [Pipeline.firstItems_erase, Items.redirects_erase])
  rw [Pipeline.words_erase, tokens, ← substitutionEnd_split ended, Pipeline.opens_erase,
    Pipeline.length_links_erase] at comes
  exact ⟨_, _, comes, read.wires.succeed.afterPipe created⟩

theorem TokensReadFreed.inside {position : Nat} {kernel : Kernel} {fd : Int × Int}
    (clean : ∀ token ∈ rest, token ≠ [] ∧ ' ' ∉ token)
    (ended : substitutionEnd 0 rest = some position)
    (created : state.kernel.pipe outcomes = (some fd, kernel))
    (reads : ReadsFreed outcomes (state.substituting kernel fd)
      (words commandSeparator (joinStrings (rest.take position) [' '])) own) :
    TokensReadFreed outcomes state redirected (commandSubstitutionStart :: rest) own := by
  rw [words_joined fun token member => clean token (List.mem_of_mem_take member)] at reads
  obtain ⟨name, inner, tokens, opens, pipes, comes, succeed⟩ := reads
  have split := substitutionEnd_split ended
  have length := substitutionEnd_take ended
  rw [tokens] at split length
  refine ⟨opens, 1 + pipes, ?_, succeed.afterPipe created⟩
  rw [split]
  refine .inside ?_ comes
  rw [← split, ended, ← length]
  rfl

theorem TokensReadFreed.pipe (clean : ∀ token ∈ rest, token ≠ [] ∧ ' ' ∉ token)
    (reads : ReadsFreed outcomes state (words commandSeparator (joinStrings rest [' '])) own) :
    TokensReadFreed outcomes state false (pipeSymbol :: rest) own := by
  rw [words_joined clean] at reads
  obtain ⟨name, others, rfl, opens, pipes, comes, succeed⟩ := reads
  exact ⟨opens, pipes, .pipe comes, succeed⟩

/-- An ordinary token does not matter. -/
theorem TokensReadFreed.tail {token : CString}
    (ordinary : containsString redirectionCaretSymbols token = false)
    (reads : TokensReadFreed outcomes state redirected (token :: rest) own) :
    TokensReadFreed outcomes state redirected rest own := by
  obtain ⟨opens, pipes, comes, succeed⟩ := reads
  have noSymbol : ∀ symbol ∈ redirectionCaretSymbols, token ≠ symbol :=
    fun symbol member => Word.ne_symbol ⟨token, ordinary⟩ member
  cases comes with
  | word comes => exact ⟨opens, pipes, comes, succeed⟩
  | redirection => exact absurd rfl (noSymbol _ (Redirection.text_mem _))
  | substitution => exact absurd rfl (noSymbol _ (by decide))
  | freed => exact absurd rfl (noSymbol _ (by decide))
  | inside => exact absurd rfl (noSymbol _ (by decide))
  | pipe => exact absurd rfl (noSymbol _ (by decide))

end Reading

/-- `parse_command` reads the descriptors of a call that it has freed; `own` tells
whether the call has redirections. -/
def ReadsFreedCall (outcomes : FileOutcomes) (commandString : CString) (state : ParserState)
    (own : Bool) : Prop :=
  ReadsFreed outcomes state (runs commandString) own

theorem ComesToFreed.substitution_mem {own redirected : Bool} {tokens : List CString}
    {opens pipes : Nat} (comes : ComesToFreed own redirected tokens opens pipes) :
    commandSubstitutionStart ∈ tokens := by
  induction comes with
  | word _ ih => exact .tail _ ih
  | redirection _ ih => exact .tail _ (.tail _ ih)
  | substitution _ _ _ => exact .head _
  | freed _ _ _ => exact .head _
  | inside _ _ _ => exact .head _
  | pipe _ ih => exact .tail _ (.tail _ ih)

/-- Only strings with a substitution make the parser read a freed call. -/
theorem ReadsFreedCall.substitution_mem {outcomes : FileOutcomes} {commandString : CString}
    {state : ParserState} {own : Bool} (reads : ReadsFreedCall outcomes commandString state own) :
    commandSubstitutionStart ∈ runs commandString := by
  obtain ⟨name, rest, tokens, _, _, comes, _⟩ := reads
  rw [tokens]
  exact .tail _ comes.substitution_mem

/-- What the freed call holds does not matter for that. -/
theorem readsFreedCall_withFreed {outcomes : FileOutcomes} {commandString : CString}
    {state : ParserState} {own : Bool} (freed : Nat → Fds) :
    ReadsFreedCall { outcomes with freed } commandString state own ↔
      ReadsFreedCall outcomes commandString state own := by
  constructor
  · rintro ⟨name, rest, tokens, opens, pipes, comes, succeed⟩
    exact ⟨name, rest, tokens, opens, pipes, comes, succeed.opens, succeed.pipes⟩
  · rintro ⟨name, rest, tokens, opens, pipes, comes, succeed⟩
    exact ⟨name, rest, tokens, opens, pipes, comes, succeed.opens, succeed.pipes⟩

/-! ## Accepted strings -/

/-- A parse that succeeds reads no freed call, so that it does not depend on what one holds. -/
theorem parser_withFreed (outcomes : FileOutcomes) (freed : Nat → Fds) :
    (∀ commandString insideSubstitution insidePipeline state ref state',
      parseCommandCall outcomes commandString insideSubstitution insidePipeline state =
        (some ref, state') →
      parseCommandCall { outcomes with freed } commandString insideSubstitution insidePipeline
        state = (some ref, state')) ∧
    (∀ context builder before rest state ref state',
      parseTokens outcomes context builder before rest state = (some ref, state') →
      parseTokens { outcomes with freed } context builder before rest state =
        (some ref, state')) ∧
    (∀ builder rest state result state',
      parseCommandSubstitution outcomes builder rest state = (some result, state') →
      parseCommandSubstitution { outcomes with freed } builder rest state =
        (some result, state')) := by
  have pipe : ∀ kernel : Kernel, kernel.pipe { outcomes with freed } = kernel.pipe outcomes :=
    fun _ => rfl
  have redirections : ∀ fds symbol filename state,
      parseRedirections { outcomes with freed } fds symbol filename state =
        parseRedirections outcomes fds symbol filename state := fun _ _ _ _ => rfl
  have link : ∀ builder call state, linkPipelines { outcomes with freed } builder call state =
      linkPipelines outcomes builder call state := fun _ _ _ => rfl
  apply @parser_induction outcomes
  case blank =>
    intro commandString insideSubstitution insidePipeline state blank ref state' parsed
    rw [parseCommandCall_blank blank] at parsed
    cases parsed
  case string =>
    intro commandString insideSubstitution insidePipeline state nonblank ih ref state' parsed
    rw [parseCommandCall_words nonblank] at parsed ⊢
    exact ih ref state' parsed
  case nil =>
    intro context builder before state ref state' parsed
    rw [parseTokens_nil] at parsed ⊢
    exact parsed
  case word =>
    intro context builder before token rest state ordinary ih ref state' parsed
    rw [parseTokens_word ordinary] at parsed ⊢
    exact ih ref state' parsed
  case misplaced =>
    intro context builder before token rest state symbol outside ref state' parsed
    rw [parseTokens_misplaced symbol outside] at parsed
    cases parsed
  case adjacent =>
    intro context builder before token rest state symbol inside adjacent ref state' parsed
    rw [parseTokens_adjacent symbol inside adjacent] at parsed
    cases parsed
  case start =>
    intro context builder before rest state inside apart body ih ref state' parsed
    rw [parseTokens_substitution inside apart] at parsed ⊢
    cases substituted : parseCommandSubstitution outcomes builder rest state with
    | mk result state₁ =>
        cases result with
        | none =>
            rw [substituted] at parsed
            cases parsed
        | some result =>
            rw [substituted] at parsed
            rw [body result state₁ substituted]
            exact ih _ _ _ _ substituted ref state' parsed
  case pipe =>
    intro context builder before rest state inside apart ih ref state' parsed
    rw [parseTokens_pipe inside apart] at parsed ⊢
    by_cases free : builder.fds.stdout = uninitializedFd
    · rw [if_neg (not_not.mpr free)] at parsed ⊢
      cases called : parseCommandCall outcomes (joinStrings rest [' ']) context.insideSubstitution
          true state with
      | mk result state₁ =>
          cases result with
          | none =>
              rw [called] at parsed
              cases parsed
          | some pipped =>
              rw [called] at parsed
              rw [ih free pipped state₁ called]
              simp only [link]
              exact parsed
    · rw [if_pos free] at parsed
      cases parsed
  case stray =>
    intro context builder before rest state inside apart ref state' parsed
    rw [parseTokens_redirection (by decide) inside apart (by decide) (by decide),
      parseRedirections_end] at parsed
    cases parsed
  case redirection =>
    intro context builder before symbol rest state inside apart ih ref state' parsed
    rw [parseTokens_redirection_text inside apart] at parsed ⊢
    rw [redirections]
    cases redirected : parseRedirections outcomes builder.fds symbol.text (rest.headD []) state with
    | mk result state₁ =>
        cases result with
        | none =>
            rw [redirected] at parsed
            cases parsed
        | some fds =>
            rw [redirected] at parsed
            exact ih fds state₁ redirected ref state' parsed
  case body =>
    intro builder rest state ih result state' parsed
    cases ended : substitutionEnd 0 rest with
    | none =>
        rw [parseCommandSubstitution_unclosed ended] at parsed
        cases parsed
    | some position =>
        cases created : state.kernel.pipe outcomes with
        | mk made kernel =>
            cases made with
            | none =>
                rw [parseCommandSubstitution_pipe_none ended created] at parsed
                cases parsed
            | some fd =>
                rw [parseCommandSubstitution_parsed ended created] at parsed
                rw [parseCommandSubstitution_parsed ended ((pipe _).trans created)]
                obtain ⟨accepted, _, concluded⟩ := concludeSubstitution_some parsed
                obtain ⟨call, called⟩ := Option.isSome_iff_exists.mp accepted
                rw [ih position fd kernel ended created call _ (Prod.ext called rfl), ← called]
                exact concluded freed

theorem parseCommand_withFreed {outcomes : FileOutcomes} {commandString : CString}
    {state state' : ParserState} {command : Command} (freed : Nat → Fds)
    (accepted : parseCommand outcomes commandString state = (some command, state')) :
    parseCommand { outcomes with freed } commandString state = (some command, state') := by
  cases nonblank : newEmptyCommand commandString with
  | false =>
      rw [parseCommand_blank nonblank] at accepted
      cases accepted
  | true =>
      rw [parseCommand_eq nonblank] at accepted ⊢
      cases called : parseCommandCall outcomes commandString false false state.entering with
      | mk call state₁ =>
          rw [called] at accepted
          cases call with
          | none =>
              cases last : state₁.lastParsedCommandCall <;>
                simp [concludeCommand, last, abandonCommand] at accepted
          | some call =>
              rw [(parser_withFreed outcomes freed).1 _ _ _ _ call state₁ called]
              exact accepted

theorem parseCommand_withFreed_none {outcomes : FileOutcomes} {commandString : CString}
    {state : ParserState} (freed : Nat → Fds) :
    (parseCommand { outcomes with freed } commandString state).1 = none ↔
      (parseCommand outcomes commandString state).1 = none := by
  have kept : ∀ {outcomes : FileOutcomes} (freed : Nat → Fds),
      (parseCommand { outcomes with freed } commandString state).1 = none →
        (parseCommand outcomes commandString state).1 = none := by
    intro outcomes freed refused
    cases parsed : parseCommand outcomes commandString state with
    | mk result state' =>
        cases result with
        | none => rfl
        | some command =>
            rw [parseCommand_withFreed freed parsed] at refused
            cases refused
  exact ⟨kept freed, @kept { outcomes with freed } outcomes.freed⟩

end Jsh
