import Jsh.CommandStrings
import Jsh.DescriptorLeaks
import Jsh.SyntaxErrors

/-!
# Files the shell opens

The parser opens the files of redirections while it reads, and nothing else in the shell
opens any. So the files that a run opens are those its lines ask for, in the order in
which they stand there; one that cannot be opened is the last one of its line.
-/

set_option autoImplicit false

namespace Jsh

open Library

/-! ## Files that are asked for -/

/-- The redirection a token stands for. -/
def redirection? (token : CString) : Option Redirection :=
  [.input, .output, .outputTruncate, .outputAppend, .error, .errorTruncate, .errorAppend].find?
    fun symbol => symbol.text = token

/-- The words behind redirection symbols, each with the mode the symbol opens it in. -/
def requestedFiles : List CString → List (CString × OpenMode)
  | token :: file :: rest =>
      (redirection? token).toList.map (fun symbol => (file, symbol.mode)) ++
        requestedFiles (file :: rest)
  | _ => []

/-- The files a line asks for. -/
def lineFiles (line : CString) : List (CString × OpenMode) :=
  (segments line).flatMap fun segment => requestedFiles (runs segment)

theorem redirection?_text (symbol : Redirection) : redirection? symbol.text = some symbol := by
  cases symbol <;> decide

theorem redirection?_ordinary {token : CString}
    (ordinary : containsString redirectionCaretSymbols token = false) :
    redirection? token = none := by
  refine List.find?_eq_none.mpr fun symbol _ same => ?_
  rw [← of_decide_eq_true same] at ordinary
  have reserved : containsString redirectionCaretSymbols symbol.text = true := by
    cases symbol <;> decide
  rw [reserved] at ordinary
  cases ordinary

theorem requestedFiles_plain {token : CString} (plain : redirection? token = none)
    (rest : List CString) : requestedFiles (token :: rest) = requestedFiles rest := by
  cases rest with
  | nil => rfl
  | cons file rest =>
      rw [requestedFiles, plain]
      rfl

theorem requestedFiles_redirection (symbol : Redirection) (file : CString) (rest : List CString) :
    requestedFiles (symbol.text :: file :: rest) =
      (file, symbol.mode) :: requestedFiles (file :: rest) := by
  rw [requestedFiles, redirection?_text]
  rfl

theorem requestedFiles_prefix (first second : List CString) :
    requestedFiles first <+: requestedFiles (first ++ second) := by
  induction first with
  | nil => exact List.nil_prefix
  | cons token rest ih =>
      cases rest with
      | nil => exact List.nil_prefix
      | cons file rest =>
          rw [List.cons_append, List.cons_append, requestedFiles, requestedFiles]
          exact (List.prefix_append_right_inj _).mpr ih

/-- A file that is asked for stands behind a symbol of its mode. -/
theorem exists_redirection_of_requested {tokens : List CString} {file : CString} {mode : OpenMode}
    (requested : (file, mode) ∈ requestedFiles tokens) :
    ∃ symbol : Redirection, symbol.mode = mode ∧ [symbol.text, file] <:+: tokens := by
  induction tokens with
  | nil => cases requested
  | cons token rest ih =>
      cases rest with
      | nil => cases requested
      | cons next rest =>
          rw [requestedFiles] at requested
          rcases List.mem_append.mp requested with here | later
          · obtain ⟨symbol, found, same⟩ := List.mem_map.mp here
            cases same
            have found' : redirection? token = some symbol := Option.mem_toList.mp found
            unfold redirection? at found'
            have text : symbol.text = token := by simpa using List.find?_some found'
            exact ⟨symbol, rfl, [], rest, by rw [text]; rfl⟩
          · obtain ⟨symbol, same, before, after, whole⟩ := ih later
            exact ⟨symbol, same, token :: before, after, by rw [← whole]; rfl⟩

/-- The last token asks for no file. -/
def EndsPlainly (tokens : List CString) : Prop :=
  ∀ later, requestedFiles (tokens ++ later) = requestedFiles tokens ++ requestedFiles later

theorem EndsPlainly.nil : EndsPlainly [] := fun _ => rfl

theorem EndsPlainly.cons {token : CString} {rest : List CString}
    (plain : redirection? token = none) (ends : EndsPlainly rest) :
    EndsPlainly (token :: rest) := by
  intro later
  rw [List.cons_append, requestedFiles_plain plain, requestedFiles_plain plain, ends]

theorem EndsPlainly.redirection (symbol : Redirection) {file : CString} {rest : List CString}
    (ends : EndsPlainly (file :: rest)) : EndsPlainly (symbol.text :: file :: rest) := by
  intro later
  rw [List.cons_append, List.cons_append, requestedFiles_redirection, requestedFiles_redirection,
    ← List.cons_append, ends, List.cons_append]

theorem EndsPlainly.append {first second : List CString} (before : EndsPlainly first)
    (after : EndsPlainly second) : EndsPlainly (first ++ second) := by
  intro later
  rw [List.append_assoc, before, after, before, List.append_assoc]

/-! ## Opening in turn -/

/-- From the `open` calls made before, those of the files are made one after the other. The
flag says that all of them have been made and succeeded; without it, there may be files left
and the last one may have failed. -/
inductive OpensInTurn (outcomes : FileOutcomes) :
    List (CString × OpenMode) → Bool → List (CString × OpenMode) → List (CString × OpenMode) → Prop
  | all {opens : List (CString × OpenMode)} : OpensInTurn outcomes [] true opens opens
  | stops (files : List (CString × OpenMode)) {opens : List (CString × OpenMode)} :
      OpensInTurn outcomes files false opens opens
  | fails (files : List (CString × OpenMode)) {opens : List (CString × OpenMode)}
      {file : CString × OpenMode} {error : CString} :
      outcomes.openError opens.length = some error →
      OpensInTurn outcomes (file :: files) false opens (opens ++ [file])
  | opens {files opens finish : List (CString × OpenMode)} {file : CString × OpenMode}
      {finished : Bool} : outcomes.openError opens.length = none →
      OpensInTurn outcomes files finished (opens ++ [file]) finish →
      OpensInTurn outcomes (file :: files) finished opens finish

section InTurn

variable {outcomes : FileOutcomes} {files later start middle finish : List (CString × OpenMode)}
  {finished : Bool}

theorem OpensInTurn.unfinished (turn : OpensInTurn outcomes files finished start finish) :
    OpensInTurn outcomes files false start finish := by
  induction turn with
  | all => exact .stops []
  | stops files => exact .stops files
  | fails files failed => exact .fails files failed
  | opens opened _ ih => exact .opens opened ih

theorem OpensInTurn.append (first : OpensInTurn outcomes files true start middle)
    (second : OpensInTurn outcomes later finished middle finish) :
    OpensInTurn outcomes (files ++ later) finished start finish := by
  generalize whole : true = complete at first
  induction first with
  | all => exact second
  | stops => cases whole
  | fails => cases whole
  | opens opened _ ih => exact .opens opened (ih second whole)

theorem OpensInTurn.weaken (turn : OpensInTurn outcomes files finished start finish)
    (longer : files <+: later) : OpensInTurn outcomes later false start finish := by
  obtain ⟨more, rfl⟩ := longer
  induction turn with
  | all => exact .stops more
  | stops files => exact .stops _
  | fails files failed => exact .fails _ failed
  | opens opened _ ih => exact .opens opened ih

/-- The calls that are made are the first ones of those asked for, and only the last one
can fail. -/
theorem OpensInTurn.exists_prefix (turn : OpensInTurn outcomes files finished start finish) :
    ∃ made, finish = start ++ made ∧ made <+: files ∧
      (∀ index, index + 1 < made.length →
        outcomes.openError (start.length + index) = none) ∧
      (finished = true → made = files ∧
        ∀ index < made.length, outcomes.openError (start.length + index) = none) := by
  induction turn with
  | all => exact ⟨[], (List.append_nil _).symm, List.nil_prefix, by simp, by simp⟩
  | stops files => exact ⟨[], (List.append_nil _).symm, List.nil_prefix, by simp, by simp⟩
  | @fails files opens file error failed =>
      exact ⟨[file], rfl, (List.prefix_append_right_inj [file]).mpr List.nil_prefix, by simp,
        by simp⟩
  | @opens files opens finish file finished opened _ ih =>
      obtain ⟨made, same, first, succeeded, complete⟩ := ih
      have next : ∀ index, (∀ before, index = before + 1 →
          outcomes.openError ((opens ++ [file]).length + before) = none) →
          outcomes.openError (opens.length + index) = none := by
        intro index later
        cases index with
        | zero => exact opened
        | succ before =>
            have shifted := later before rfl
            rwa [List.length_append, List.length_singleton, Nat.add_assoc,
              Nat.add_comm 1] at shifted
      refine ⟨file :: made, ?_, List.cons_prefix_cons.mpr ⟨rfl, first⟩, ?_, fun whole => ?_⟩
      · rw [same, List.append_assoc, List.singleton_append]
      · intro index bounded
        refine next index fun before same => succeeded before ?_
        rw [List.length_cons] at bounded
        omega
      · obtain ⟨all, opened'⟩ := complete whole
        refine ⟨by rw [all], fun index bounded => ?_⟩
        refine next index fun before same => opened' before ?_
        rw [List.length_cons] at bounded
        omega

theorem OpensInTurn.asked (turn : OpensInTurn outcomes files finished start finish)
    {file : CString × OpenMode} (member : file ∈ finish) : file ∈ start ∨ file ∈ files := by
  obtain ⟨made, rfl, first, _⟩ := turn.exists_prefix
  exact (List.mem_append.mp member).imp_right fun inside => first.subset inside

end InTurn

/-! ## The parser -/

/-- Parsing the tokens opens the files they ask for. -/
structure ParsesInTurn (outcomes : FileOutcomes) (tokens : List CString) (accepted : Bool)
    (start finish : ParserState) : Prop where
  turn : OpensInTurn outcomes (requestedFiles tokens) accepted start.kernel.opens
    finish.kernel.opens
  ends : accepted = true → EndsPlainly tokens

section Parser

variable {outcomes : FileOutcomes} {tokens : List CString} {accepted : Bool}
  {start finish : ParserState}

theorem ParsesInTurn.unopened (same : finish.kernel.opens = start.kernel.opens) :
    ParsesInTurn outcomes tokens false start finish :=
  ⟨same ▸ .stops _, fun none => (Bool.false_ne_true none).elim⟩

theorem ParsesInTurn.abandoned {before : List CString} {other : ParserState}
    {builder : CommandCallBuilder}
    (parses : ParsesInTurn outcomes before accepted start finish)
    (first : requestedFiles before <+: requestedFiles tokens)
    (same : other.kernel.opens = finish.kernel.opens) :
    ParsesInTurn outcomes tokens (abandonCommandCall builder other).1.isSome start
      (abandonCommandCall builder other).2 := by
  refine ⟨?_, fun none => (Bool.false_ne_true none).elim⟩
  rw [opens_abandonCommandCall, same]
  exact parses.turn.weaken first

theorem ParsesInTurn.finished {context : CallContext} {builder : CommandCallBuilder}
    {before : List (Option CString)} (parses : ParsesInTurn outcomes tokens true start finish) :
    ParsesInTurn outcomes tokens (finishCommandCall context builder before finish).1.isSome start
      (finishCommandCall context builder before finish).2 := by
  by_cases finishes : Finishes context builder finish
  · rw [finishCommandCall_of_finishes finishes]
    exact ⟨parses.turn, fun _ => parses.ends rfl⟩
  · rw [finishCommandCall_of_not_finishes finishes]
    exact parses.abandoned (List.prefix_refl _) rfl

/-- The tokens before those that are left open their files first. -/
theorem ParsesInTurn.after {before rest : List CString} {middle : ParserState}
    (first : ParsesInTurn outcomes before true start middle)
    (second : ParsesInTurn outcomes rest accepted middle finish) :
    ParsesInTurn outcomes (before ++ rest) accepted start finish where
  turn := by
    rw [first.ends rfl rest]
    exact first.turn.append second.turn
  ends whole := (first.ends rfl).append (second.ends whole)

theorem ParsesInTurn.plain {token : CString} (plain : redirection? token = none)
    (parses : ParsesInTurn outcomes tokens accepted start finish) :
    ParsesInTurn outcomes (token :: tokens) accepted start finish where
  turn := by
    rw [requestedFiles_plain plain]
    exact parses.turn
  ends whole := .cons plain (parses.ends whole)

end Parser

def CallInTurn (outcomes : FileOutcomes) (commandString : CString)
    (insideSubstitution insidePipeline : Bool) (state : ParserState) : Prop :=
  ParsesInTurn outcomes (words commandSeparator commandString)
    (parseCommandCall outcomes commandString insideSubstitution insidePipeline state).1.isSome state
    (parseCommandCall outcomes commandString insideSubstitution insidePipeline state).2

def TokensInTurn (outcomes : FileOutcomes) (context : CallContext) (builder : CommandCallBuilder)
    (before : List (Option CString)) (rest : List CString) (state : ParserState) : Prop :=
  Clean rest →
    ParsesInTurn outcomes rest (parseTokens outcomes context builder before rest state).1.isSome
      state (parseTokens outcomes context builder before rest state).2

/-- The tokens of a substitution are those before the bracket that closes it. -/
def SubstitutionInTurn (outcomes : FileOutcomes) (builder : CommandCallBuilder)
    (rest : List CString) (state : ParserState) : Prop :=
  Clean rest →
    ParsesInTurn outcomes rest false state
        (parseCommandSubstitution outcomes builder rest state).2 ∧
      ∀ result state₁,
        parseCommandSubstitution outcomes builder rest state = (some result, state₁) →
        rest = rest.take result.2.2 ++ commandSubstitutionEnd :: rest.drop (result.2.2 + 1) ∧
          ParsesInTurn outcomes (rest.take result.2.2) true state state₁

theorem substitutionInTurn {outcomes : FileOutcomes} {builder : CommandCallBuilder}
    {rest : List CString} {state : ParserState}
    (body : ∀ position fd kernel, substitutionEnd 0 rest = some position →
      state.kernel.pipe outcomes = (some fd, kernel) →
      CallInTurn outcomes (joinStrings (rest.take position) [' ']) true false
        (state.substituting kernel fd)) :
    SubstitutionInTurn outcomes builder rest state := by
  intro clean
  cases ended : substitutionEnd 0 rest with
  | none =>
      rw [parseCommandSubstitution_unclosed ended]
      refine ⟨.unopened rfl, fun result _ refused => ?_⟩
      cases refused
  | some position =>
      cases created : state.kernel.pipe outcomes with
      | mk made kernel =>
          have same := opens_pipe created
          cases made with
          | none =>
              rw [parseCommandSubstitution_pipe_none ended created]
              refine ⟨.unopened same, fun result _ refused => ?_⟩
              cases refused
          | some fd =>
              have called := body position fd kernel ended created
              unfold CallInTurn at called
              have taken : Clean (rest.take position) := fun token member =>
                clean token (List.mem_of_mem_take member)
              rw [words_joined taken] at called
              have opens := @opens_parseCommandSubstitution _ builder _ _ _ _ _ ended created
              have split := substitutionEnd_split ended
              have turn := called.turn
              rw [show (state.substituting kernel fd).kernel.opens = state.kernel.opens from same,
                ← opens] at turn
              refine ⟨⟨turn.weaken ?_, fun none => (Bool.false_ne_true none).elim⟩,
                fun result state₁ parsed => ?_⟩
              · have first := requestedFiles_prefix (rest.take position)
                  (commandSubstitutionEnd :: rest.drop (position + 1))
                rwa [← split] at first
              · rw [parsed] at turn
                rw [parseCommandSubstitution_parsed ended created] at parsed
                obtain ⟨accepted, same', _⟩ := concludeSubstitution_some parsed
                rw [accepted] at turn called
                rw [same']
                exact ⟨split, turn, called.ends⟩

/-- A redirection is refused exactly when its file cannot be opened. -/
theorem parseRedirections_isSome (outcomes : FileOutcomes) (state : ParserState) (fds : Fds)
    (symbol : Redirection) (filename : CString) :
    (parseRedirections outcomes fds symbol.text filename state).1.isSome =
      (outcomes.openError state.kernel.opens.length).isNone := by
  rw [parseRedirections_eq, redirectStream]
  cases opened : state.kernel.openFile outcomes filename symbol.mode with
  | mk result kernel =>
      cases result with
      | error error =>
          rw [(Kernel.openFile_error opened).1]
          dsimp only
          split
          · rfl
          · rfl
      | ok fd =>
          rw [(Kernel.openFile_ok opened).1]
          rfl

theorem tokensInTurn_start {outcomes : FileOutcomes} {context : CallContext}
    {builder : CommandCallBuilder} {before : List (Option CString)} {rest : List CString}
    {state : ParserState} (inside : ¬ (rest = [] ∨ before = []))
    (apart : containsString redirectionCaretSymbols (rest.headD []) = false)
    (body : SubstitutionInTurn outcomes builder rest state)
    (ih : ∀ builder' path position state₁,
      parseCommandSubstitution outcomes builder rest state =
        (some (builder', path, position), state₁) →
      TokensInTurn outcomes context builder'
        (before ++ none :: List.replicate position none ++ [some path]) (rest.drop (position + 1))
        state₁) :
    TokensInTurn outcomes context builder before (commandSubstitutionStart :: rest) state := by
  intro clean
  have clean' : Clean rest := fun token member => clean token (.tail _ member)
  have bracket : redirection? commandSubstitutionStart = none := by decide
  have closing : redirection? commandSubstitutionEnd = none := by decide
  obtain ⟨whole, made⟩ := body clean'
  rw [parseTokens_substitution inside apart]
  cases parsed : parseCommandSubstitution outcomes builder rest state with
  | mk result state₁ =>
      rw [parsed] at whole
      cases result with
      | none =>
          refine whole.abandoned ?_ rfl
          rw [requestedFiles_plain bracket]
      | some result =>
          obtain ⟨builder', path, position⟩ := result
          obtain ⟨split, first⟩ := made _ _ parsed
          have second := ih _ _ _ _ parsed fun token member =>
            clean' token (List.mem_of_mem_drop member)
          have both := (first.after (second.plain closing)).plain bracket
          rwa [← split] at both

theorem tokensInTurn_pipe {outcomes : FileOutcomes} {context : CallContext}
    {builder : CommandCallBuilder} {before : List (Option CString)} {rest : List CString}
    {state : ParserState} (inside : ¬ (rest = [] ∨ before = []))
    (apart : containsString redirectionCaretSymbols (rest.headD []) = false)
    (ih : builder.fds.stdout = uninitializedFd →
      CallInTurn outcomes (joinStrings rest [' ']) context.insideSubstitution true state) :
    TokensInTurn outcomes context builder before (pipeSymbol :: rest) state := by
  intro clean
  have clean' : Clean rest := fun token member => clean token (.tail _ member)
  have bar : redirection? pipeSymbol = none := by decide
  by_cases free : builder.fds.stdout = uninitializedFd
  · have called := ih free
    rw [CallInTurn, words_joined clean'] at called
    have first : requestedFiles rest <+: requestedFiles (pipeSymbol :: rest) := by
      rw [requestedFiles_plain bar]
    rw [parseTokens_pipe inside apart, if_neg fun set => set free]
    cases parsed : parseCommandCall outcomes (joinStrings rest [' ']) context.insideSubstitution
        true state with
    | mk result state₁ =>
        rw [parsed] at called
        cases result with
        | none => exact called.abandoned first rfl
        | some call =>
            dsimp only
            cases created : state₁.kernel.pipe outcomes with
            | mk made kernel =>
                have same := opens_pipe created
                cases made with
                | none =>
                    rw [linkPipelines_none created]
                    exact called.abandoned first same
                | some fd =>
                    rw [linkPipelines_some created]
                    have linked := called.plain bar
                    refine ParsesInTurn.finished ⟨?_, linked.ends⟩
                    have turn := linked.turn
                    rw [← same] at turn
                    exact turn
  · rw [parseTokens_pipe inside apart, if_pos free]
    exact .unopened (opens_abandonCommandCall _ _)

theorem tokensInTurn_redirection {outcomes : FileOutcomes} {context : CallContext}
    {builder : CommandCallBuilder} {before : List (Option CString)} {symbol : Redirection}
    {file : CString} {rest : List CString} {state : ParserState}
    (inside : ¬ (file :: rest = [] ∨ before = []))
    (apart : containsString redirectionCaretSymbols file = false)
    (ih : ∀ fds state₁,
      parseRedirections outcomes builder.fds symbol.text file state = (some fds, state₁) →
      TokensInTurn outcomes context { builder with fds } (before ++ [none, none]) rest state₁) :
    TokensInTurn outcomes context builder before (symbol.text :: file :: rest) state := by
  intro clean
  have ordinary := redirection?_ordinary apart
  have opened := opens_parseRedirections outcomes state builder.fds symbol file
  have succeeded := parseRedirections_isSome outcomes state builder.fds symbol file
  rw [parseTokens_redirection_text inside apart]
  dsimp only [List.headD_cons]
  cases redirected : parseRedirections outcomes builder.fds symbol.text file state with
  | mk result state₁ =>
      rw [redirected] at opened succeeded
      dsimp only at opened succeeded
      cases failed : outcomes.openError state.kernel.opens.length with
      | some error =>
          rw [failed] at succeeded
          cases result with
          | some fds => cases succeeded
          | none =>
              refine ⟨?_, fun none => (Bool.false_ne_true none).elim⟩
              rw [requestedFiles_redirection, opens_abandonCommandCall, opened]
              exact .fails _ failed
      | none =>
          rw [failed] at succeeded
          cases result with
          | none => cases succeeded
          | some fds =>
              have parses := ih fds state₁ redirected fun token member =>
                clean token (.tail _ (.tail _ member))
              refine ⟨?_, fun whole => ?_⟩
              · have turn := parses.turn
                rw [opened] at turn
                rw [requestedFiles_redirection, requestedFiles_plain ordinary]
                exact .opens failed turn
              · exact .redirection symbol (.cons ordinary (parses.ends whole))

/-- The parser opens the files its words ask for, in turn. -/
theorem parser_opens_in_turn (outcomes : FileOutcomes) :
    (∀ commandString insideSubstitution insidePipeline state,
      CallInTurn outcomes commandString insideSubstitution insidePipeline state) ∧
    (∀ context builder before rest state,
      TokensInTurn outcomes context builder before rest state) ∧
    (∀ builder rest state, SubstitutionInTurn outcomes builder rest state) := by
  apply parser_induction
  case blank =>
    intro commandString insideSubstitution insidePipeline state blank
    rw [CallInTurn, parseCommandCall_blank blank]
    exact .unopened rfl
  case string =>
    intro commandString insideSubstitution insidePipeline state nonblank ih
    rw [CallInTurn, parseCommandCall_words nonblank]
    exact ih (words_clean commandSeparator_single commandString)
  case nil =>
    intro context builder before state _
    rw [parseTokens_nil]
    exact ParsesInTurn.finished ⟨.all, fun _ => .nil⟩
  case word =>
    intro context builder before token rest state ordinary ih clean
    rw [parseTokens_word ordinary]
    exact (ih fun token member => clean token (.tail _ member)).plain
      (redirection?_ordinary ordinary)
  case misplaced =>
    intro context builder before token rest state symbol outside _
    rw [parseTokens_misplaced symbol outside]
    exact .unopened (opens_abandonCommandCall _ _)
  case adjacent =>
    intro context builder before token rest state symbol inside adjacent _
    rw [parseTokens_adjacent symbol inside adjacent]
    exact .unopened (opens_abandonCommandCall _ _)
  case start =>
    intro context builder before rest state inside apart body ih
    exact tokensInTurn_start inside apart body ih
  case pipe =>
    intro context builder before rest state inside apart ih clean
    exact tokensInTurn_pipe inside apart ih clean
  case stray =>
    intro context builder before rest state inside apart _
    rw [parseTokens_redirection (by decide) inside apart (by decide) (by decide),
      parseRedirections_end]
    exact .unopened (opens_abandonCommandCall _ _)
  case redirection =>
    intro context builder before symbol rest state inside apart ih clean
    cases rest with
    | nil => exact (inside (.inl rfl)).elim
    | cons file rest => exact tokensInTurn_redirection inside apart ih clean
  case body =>
    intro builder rest state ih
    exact substitutionInTurn ih

/-! ## Commands and lines -/

theorem concludeCommand_isSome {commandString : CString}
    {called : Option CallRef × ParserState}
    (concluded : (concludeCommand commandString called).1.isSome = true) :
    called.1.isSome = true := by
  obtain ⟨call, state⟩ := called
  cases call with
  | some call => rfl
  | none =>
      unfold concludeCommand at concluded
      dsimp only at concluded
      split at concluded
      · cases concluded
      · cases concluded

theorem parseCommand_opens_in_turn (outcomes : FileOutcomes) (commandString : CString)
    (state : ParserState) :
    OpensInTurn outcomes (requestedFiles (runs commandString))
      (parseCommand outcomes commandString state).1.isSome state.kernel.opens
      (parseCommand outcomes commandString state).2.kernel.opens := by
  cases nonblank : newEmptyCommand commandString with
  | false =>
      rw [parseCommand_blank nonblank]
      exact .stops _
  | true =>
      have called :=
        ((parser_opens_in_turn outcomes).1 commandString false false state.entering).turn
      rw [words_commandSeparator] at called
      rw [opens_parseCommand nonblank]
      cases accepted : (parseCommand outcomes commandString state).1.isSome with
      | false => exact called.unfinished
      | true =>
          rw [parseCommand_eq nonblank] at accepted
          rw [concludeCommand_isSome accepted] at called
          exact called

/-- No segment of the line is refused. -/
def LineAccepted (outcomes : FileOutcomes) (line : CString) (parser : ParserState) : Prop :=
  startsWith line backgroundFlag.text = false ∧
    ∀ index, ¬ Rejected outcomes parser (segments line) index

theorem foldl_parseSegment_in_turn {outcomes : FileOutcomes} {total : Nat} {last : Int}
    (segments : List CString) : ∀ {loop : LineLoop}, loop.abort = false →
      loop.commands.length + segments.length = total →
      ∃ finished, OpensInTurn outcomes
          (segments.flatMap fun segment => requestedFiles (runs segment)) finished
          loop.parser.kernel.opens
          (segments.foldl (parseSegment outcomes total last) loop).parser.kernel.opens ∧
        ((∀ index, ¬ Rejected outcomes loop.parser segments index) → finished = true) := by
  induction segments with
  | nil => exact fun _ _ => ⟨true, .all, fun _ => rfl⟩
  | cons segment rest ih =>
      intro loop going counted
      rw [List.length_cons] at counted
      have opened := parseCommand_opens_in_turn outcomes segment loop.parser
      rw [List.foldl_cons, List.flatMap_cons]
      cases parsed : parseCommand outcomes segment loop.parser with
      | mk result parser =>
          rw [parsed] at opened
          cases result with
          | none =>
              have stopped : (rest.foldl (parseSegment outcomes total last)
                  (parseSegment outcomes total last loop segment)).parser = parser := by
                cases rest with
                | nil =>
                    have atLast : loop.commands.length = total - 1 := by
                      rw [List.length_nil] at counted
                      omega
                    simp [parseSegment, going, parsed, atLast]
                | cons next others =>
                    have notLast : loop.commands.length ≠ total - 1 := by
                      rw [List.length_cons] at counted
                      omega
                    rw [foldl_parseSegment_keepsParser outcomes total last]
                    · simp [parseSegment, going, parsed, notLast]
                    · simp [parseSegment, going, parsed, notLast]
              rw [stopped]
              refine ⟨false, opened.weaken (List.prefix_append _ _), fun accepted => ?_⟩
              exact (accepted 0 (rejected_zero.mpr (by rw [parsed]))).elim
          | some command =>
              have next : (parseSegment outcomes total last loop segment).parser = parser ∧
                  (parseSegment outcomes total last loop segment).abort = false ∧
                  (parseSegment outcomes total last loop segment).commands.length =
                    loop.commands.length + 1 := by
                simp [parseSegment, going, parsed]
              obtain ⟨sameParser, sameAbort, longer⟩ := next
              obtain ⟨finished, turn, complete⟩ := ih sameAbort (by omega)
              rw [sameParser] at turn complete
              refine ⟨finished, opened.append turn, fun accepted => complete fun index bad => ?_⟩
              exact accepted (index + 1) (rejected_succ.mpr (by rw [parsed]; exact bad))

theorem parseReadLine_opens_in_turn (outcomes : FileOutcomes) (line : CString)
    (parser : ParserState) (lastExitCode : Int) :
    ∃ finished, OpensInTurn outcomes (lineFiles line) finished parser.kernel.opens
        (parseReadLine outcomes line parser lastExitCode).parser.kernel.opens ∧
      (LineAccepted outcomes line parser → finished = true) := by
  cases unflagged : startsWith line backgroundFlag.text with
  | true =>
      have same : (parseReadLine outcomes line parser lastExitCode).parser = parser := by
        simp [parseReadLine, unflagged]
      rw [same]
      refine ⟨false, .stops _, fun accepted => ?_⟩
      rw [accepted.1] at unflagged
      cases unflagged
  | false =>
      rw [parseReadLine_folded unflagged]
      obtain ⟨finished, turn, complete⟩ := @foldl_parseSegment_in_turn outcomes
        (segments line).length (splitStringKeepTrace line backgroundFlag).last (segments line)
        { parser, lastExitCode, commands := [], abort := false, trimLast := false } rfl
        (Nat.zero_add _)
      exact ⟨finished, turn, fun accepted => complete accepted.2⟩

/-! ## Runs -/

/-- The lines open their files one line after the other, each in turn, and all files of a
line that is accepted. -/
inductive LinesOpen (outcomes : FileOutcomes) :
    List (CString × ParserState) → List (CString × OpenMode) → List (CString × OpenMode) → Prop
  | none {opens : List (CString × OpenMode)} : LinesOpen outcomes [] opens opens
  | line {line : CString} {parser : ParserState} {lines : List (CString × ParserState)}
      {middle finish : List (CString × OpenMode)} (finished : Bool) :
      OpensInTurn outcomes (lineFiles line) finished parser.kernel.opens middle →
      (LineAccepted outcomes line parser → finished = true) →
      LinesOpen outcomes lines middle finish →
      LinesOpen outcomes ((line, parser) :: lines) parser.kernel.opens finish

theorem LinesOpen.append {outcomes : FileOutcomes} {first second : List (CString × ParserState)}
    {start middle finish : List (CString × OpenMode)}
    (before : LinesOpen outcomes first start middle)
    (after : LinesOpen outcomes second middle finish) :
    LinesOpen outcomes (first ++ second) start finish := by
  induction before with
  | none => exact after
  | line finished turn complete _ ih => exact .line finished turn complete (ih after)

theorem LinesOpen.asked {outcomes : FileOutcomes} {lines : List (CString × ParserState)}
    {start finish : List (CString × OpenMode)} (opened : LinesOpen outcomes lines start finish)
    {file : CString × OpenMode} (member : file ∈ finish) :
    file ∈ start ∨ ∃ line parser, (line, parser) ∈ lines ∧ file ∈ lineFiles line := by
  induction opened with
  | none => exact .inl member
  | @line text parser lines middle finish finished turn _ _ ih =>
      rcases ih member with before | ⟨other, state, among, asked⟩
      · exact (turn.asked before).imp_right fun asked => ⟨text, parser, .head _, asked⟩
      · exact .inr ⟨other, state, .tail _ among, asked⟩

/-- The shell opens the files of the lines it reads, and no others. -/
def OpensAsRead (environment : Environment) (start finish : Shell) : Prop :=
  ∃ lines, finish.linesRead = start.linesRead ++ lines ∧
    LinesOpen environment.files lines start.parser.kernel.opens finish.parser.kernel.opens

section Runs

variable {environment : Environment}

instance : Std.Refl (OpensAsRead environment) where
  refl _ := ⟨[], (List.append_nil _).symm, .none⟩

instance : IsTrans Shell (OpensAsRead environment) where
  trans start middle finish := by
    intro ⟨first, before, opened⟩ ⟨second, after, opened'⟩
    refine ⟨first ++ second, ?_, opened.append opened'⟩
    rw [after, before, List.append_assoc]

/-- No file is opened. -/
def OpensNothing (start finish : Shell) : Prop :=
  finish.parser.kernel.opens = start.parser.kernel.opens

instance : Std.Refl OpensNothing where
  refl _ := rfl

instance : IsTrans Shell OpensNothing where
  trans _ _ _ before after := after.trans before

theorem ReadsNothing.opensAsRead {start finish : Shell} (reads : ReadsNothing start finish)
    (opens : OpensNothing start finish) : OpensAsRead environment start finish := by
  refine ⟨[], ?_, ?_⟩
  · rw [List.append_nil]
    exact reads.linesRead
  · rw [opens]
    exact .none

theorem liftJob_opensNothing {α : Type} (action : JobAction α) :
    Moves OpensNothing (liftJob action) :=
  (liftJob_keepsParser action).mono fun _ _ same =>
    congrArg (fun parser : ParserState => parser.kernel.opens) same

theorem modifyKernel_opensNothing (update : Kernel → Kernel)
    (kept : ∀ kernel, (update kernel).opens = kernel.opens) :
    Moves OpensNothing (modifyKernel update) :=
  .modify fun shell => kept shell.parser.kernel

theorem close_opensNothing (numbers : List Int) :
    Moves OpensNothing (modifyKernel fun kernel => numbers.foldl Kernel.close kernel) := by
  refine modifyKernel_opensNothing _ fun kernel => ?_
  induction numbers generalizing kernel with
  | nil => rfl
  | cons number rest ih => exact ih (kernel.close number)

theorem pipe_opensNothing : Moves OpensNothing (pipe environment) := by
  refine .modifyGet fun shell => ?_
  exact @opens_pipe _ shell.parser _ (shell.parser.kernel.pipe environment.files).2 rfl

theorem executeInternalCommand_opensNothing (call : CommandCall) :
    Moves OpensNothing (executeInternalCommand environment call) := by
  have steps : ShellSteps environment OpensNothing :=
    ⟨(ReadsNothing.steps environment).jobs.mono fun _ _ _ _ _ => rfl, fun _ _ _ => rfl⟩
  exact steps.executeInternalCommand (fun _ => rfl) fun _ _ => rfl

theorem OpensNothing.forkSteps (environment : Environment) :
    ForkSteps environment OpensNothing where
  outcome _ := liftJob_opensNothing _
  kill _ _ := liftJob_opensNothing _
  child _ := liftJob_opensNothing _
  close := close_opensNothing

theorem executeSingleCommand_opensNothing (command : Command) (call : CommandCall) (job : Job) :
    Moves OpensNothing (executeSingleCommand environment command call job) :=
  executeSingleCommand_parts (fun _ => executeInternalCommand_opensNothing call)
    (liftJob_opensNothing _) pipe_opensNothing
    ((OpensNothing.forkSteps environment).forkCall command call job)

theorem executeCalls_opensNothing (command : Command) (calls : List CommandCall)
    (index : Nat) (info : Option InternalExitInfo) (job : Job) :
    Moves OpensNothing (executeCalls environment command index info job calls) :=
  executeCalls_parts (executeSingleCommand_opensNothing command)
    (fun _ => liftJob_opensNothing _) calls index info job

theorem executeExternalCommand_opensNothing (command : Command) :
    Moves OpensNothing (executeExternalCommand environment command) := by
  refine (executeCalls_opensNothing command command.commandCalls 0 none _).bind fun result => ?_
  obtain ⟨info, job⟩ := result
  refine (modifyKernel_opensNothing _ (opens_closePipes command.openPipes)).bind fun _ => ?_
  cases info with
  | none => exact .pure _
  | some info =>
      dsimp only
      split
      · exact liftJob_opensNothing _
      · refine (liftJob_opensNothing _).bind fun waited => ?_
        refine (liftJob_opensNothing _).bind fun given => ?_
        split
        · exact .throw _
        · split
          · exact .pure _
          · split
            · exact .pure _
            · exact liftJob_opensNothing _

theorem executeCommand_opensNothing (command : Command) :
    Moves OpensNothing (executeCommand environment command) := by
  have ran : Moves OpensNothing (runCommand environment command) := by
    rcases runCommand_eq environment command with ⟨call, _, _, same⟩ | ⟨_, same⟩
    · rw [same]
      exact (executeInternalCommand_opensNothing call).bind fun _ => .pure _
    · rw [same]
      exact executeExternalCommand_opensNothing command
  refine ran.bind fun result => ?_
  refine (modifyKernel_opensNothing _
    (opens_closeUnusedFileDescriptors command.commandCalls command.openPipes)).bind fun _ => ?_
  have kept : Moves OpensNothing (updateCommandHistory result) := fun _ => rfl
  exact kept.bind fun _ => .pure _

theorem readLine_opensAsRead (line : CString) :
    Moves (OpensAsRead environment) (readLine environment line) := by
  intro start
  obtain ⟨finished, turn, complete⟩ :=
    parseReadLine_opens_in_turn environment.files line start.parser start.lastExitCode
  refine ⟨[(line, start.parser)], ?_, .line finished turn complete .none⟩
  change (start.control.trace ++ [Event.line line start.parser]).filterMap Event.read? = _
  rw [List.filterMap_append]
  rfl

end Runs

end Jsh
