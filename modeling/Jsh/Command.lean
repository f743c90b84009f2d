import Jsh.Descriptors
import Jsh.StringUtilsProperties

/-!
# Parsing of a command

The functions of `command.c`. Command calls are reached through pointers that are
compared and written through, so the parser state keeps them in a heap that only
grows, and a `command_call *` is an index into it. Freeing a call does not shrink the
heap: no freed call is written to, and only `parse_command_substitution` reads one,
whose descriptor fields then hold what `FileOutcomes.freed` says.
-/

set_option autoImplicit false

namespace Jsh

/-- `COMMAND_SEPARATOR` -/
def commandSeparator : Separator := { text := [' '], nonempty := by decide }

theorem commandSeparator_single : commandSeparator.text = [' '] := rfl

/-- `COMMAND_SUBSTITUTION_START` -/
def commandSubstitutionStart : CString := ['<', '(']

/-- `COMMAND_SUBSTITUTION_END` -/
def commandSubstitutionEnd : CString := [')']

/-- `PIPE_SYMBOL` -/
def pipeSymbol : CString := ['|']

def redirectionCaretSymbols : List CString :=
  [['>'], ['<'], ['>', '|'], ['>', '>'], ['2', '>'], ['2', '>', '|'], ['2', '>', '>'],
    commandSubstitutionStart, commandSubstitutionEnd, pipeSymbol]

/-- `UNINITIALIZED_FD` -/
def uninitializedFd : Int := -1

/-- `command_call`. A `pipe_info` is the list of its pipe indices. -/
structure CommandCall where
  name : CString
  argc : Nat
  argv : List CString
  commandString : CString
  readingPipes : List Nat
  writingPipes : List Nat
  stdin : Int
  stdout : Int
  stderr : Int
  deriving DecidableEq, Repr, Inhabited

/-- `command`. -/
structure Command where
  commandString : CString
  commandCalls : List CommandCall
  background : Bool
  openPipes : List (Int × Int)
  deriving DecidableEq, Repr

/-- A `command_call *`. -/
abbrev CallRef := Nat

/-- What the parser reads and writes: the descriptors, what it has printed on the
standard error, the calls allocated so far, the two globals, and the calls and
pipes of the `command` under construction. -/
structure ParserState where
  kernel : Kernel
  messages : List CString
  heap : List CommandCall
  lastParsedCommandCall : Option CallRef
  lastParsedCommandCallSubstitution : Option CallRef
  commandCalls : List CallRef
  openPipes : List (Int × Int)
  deriving DecidableEq, Repr

/-- The call a pointer points to. -/
def ParserState.call (state : ParserState) (ref : CallRef) : CommandCall :=
  state.heap.getD ref default

/-- A write through a pointer. -/
def ParserState.modifyCall (state : ParserState) (ref : CallRef)
    (update : CommandCall → CommandCall) : ParserState :=
  { state with heap := state.heap.modify ref update }

/-- `dprintf(STDERR_FILENO, ...)`. -/
def ParserState.report (state : ParserState) (message : CString) : ParserState :=
  { state with messages := state.messages ++ [message] }

def parseError : CString := "jsh: parse error\n".toList

def parseErrorNear (token : CString) : CString :=
  "jsh: parse error near ".toList ++ token ++ "\n".toList

/-- What `%s` prints for a `NULL` argument. -/
def nullText : CString := "(null)".toList

/-! ## Builders -/

/-- `command_call_builder`. -/
structure CommandCallBuilder where
  fds : Fds
  readingPipes : List Nat
  writingPipes : List Nat
  deriving DecidableEq, Repr

def newCommandCallBuilder : CommandCallBuilder :=
  { fds := ⟨uninitializedFd, uninitializedFd, uninitializedFd⟩
    readingPipes := []
    writingPipes := [] }

/-- `new_command_call`. -/
def newCommandCall (argv : List CString) (commandString : CString) : CommandCall :=
  { name := argv.headD []
    argc := argv.length
    argv
    commandString
    readingPipes := []
    writingPipes := []
    stdin := stdinFileno
    stdout := stdoutFileno
    stderr := stderrFileno }

/-- `build_command`. -/
def buildCommand (builder : CommandCallBuilder) (argv : List CString) (commandString : CString) :
    CommandCall :=
  let command := newCommandCall argv commandString
  { command with
    stdin := if builder.fds.stdin ≠ uninitializedFd then builder.fds.stdin else command.stdin
    stdout := if builder.fds.stdout ≠ uninitializedFd then builder.fds.stdout else command.stdout
    stderr := if builder.fds.stderr ≠ uninitializedFd then builder.fds.stderr else command.stderr
    writingPipes := builder.writingPipes
    readingPipes := builder.readingPipes }

/-- `add_call_at_the_end`. -/
def ParserState.addCallAtTheEnd (state : ParserState) (call : CallRef) : ParserState :=
  { state with commandCalls := state.commandCalls ++ [call] }

/-- `add_call_at_the_beginning`. -/
def ParserState.addCallAtTheBeginning (state : ParserState) (call : CallRef) : ParserState :=
  { state with commandCalls := call :: state.commandCalls }

/-- `add_pipe`. -/
def ParserState.addPipe (state : ParserState) (pipe : Int × Int) : ParserState :=
  { state with openPipes := state.openPipes ++ [pipe] }

/-! ## Redirections -/

/-- One branch of `parse_redirections`: the opened descriptor takes the place of
the one an earlier redirection of the same stream has set, which is closed. -/
def redirectStream (outcomes : FileOutcomes) (stream : Stream) (mode : OpenMode)
    (complaint : CString → Option CString) (fds : Fds) (filename : CString)
    (state : ParserState) : Option Fds × ParserState :=
  match state.kernel.openFile outcomes filename mode with
  | (.error error, kernel) =>
      match complaint error with
      | some message => (none, { state with kernel }.report message)
      | none => (none, { state with kernel })
  | (.ok fd, kernel) =>
      let previous := fds.get stream
      let kernel := if previous > 2 then kernel.close previous else kernel
      (some (fds.set stream fd), { state with kernel })

def cannotOverwrite (filename : CString) : CString :=
  "jsh: ".toList ++ filename ++ ": cannot overwrite existing file.\n".toList

/-- `parse_redirections`. -/
def parseRedirections (outcomes : FileOutcomes) (fds : Fds) (redirectionSymbol filename : CString)
    (state : ParserState) : Option Fds × ParserState :=
  if redirectionSymbol = ['<'] then
    redirectStream outcomes .stdin .readOnly
      (fun error => some ("jsh: ".toList ++ filename ++ ": ".toList ++ error ++ "\n".toList))
      fds filename state
  else if redirectionSymbol = ['>'] then
    redirectStream outcomes .stdout .createNew (fun _ => some (cannotOverwrite filename))
      fds filename state
  else if redirectionSymbol = ['>', '|'] then
    redirectStream outcomes .stdout .truncate (fun _ => none) fds filename state
  else if redirectionSymbol = ['>', '>'] then
    redirectStream outcomes .stdout .append (fun _ => none) fds filename state
  else if redirectionSymbol = ['2', '>'] then
    redirectStream outcomes .stderr .createNew (fun _ => some (cannotOverwrite filename))
      fds filename state
  else if redirectionSymbol = ['2', '>', '|'] then
    redirectStream outcomes .stderr .truncate (fun _ => none) fds filename state
  else if redirectionSymbol = ['2', '>', '>'] then
    redirectStream outcomes .stderr .append (fun _ => none) fds filename state
  else (none, state)

/-! ## Pipelines and substitutions -/

/-- `update_dependencies`. -/
def updateDependencies (builder : CommandCallBuilder) (call : CallRef) (index : Nat)
    (state : ParserState) : CommandCallBuilder × ParserState :=
  ({ builder with readingPipes := builder.readingPipes ++ [index] },
    state.modifyCall call fun call => { call with writingPipes := call.writingPipes ++ [index] })

/-- `link_pipelines`. -/
def linkPipelines (outcomes : FileOutcomes) (prev : CommandCallBuilder) (call : CallRef)
    (state : ParserState) : Option CommandCallBuilder × ParserState :=
  match state.kernel.pipe outcomes with
  | (none, kernel) => (none, { state with kernel })
  | (some fd, kernel) =>
      let index := state.openPipes.length
      let prev :=
        { prev with
          writingPipes := prev.writingPipes ++ [index]
          fds := { prev.fds with stdout := fd.2 } }
      let state := { state with kernel }.modifyCall call fun call =>
        { call with readingPipes := call.readingPipes ++ [index], stdin := fd.1 }
      (some prev, state.addPipe fd)

/-- The scan of `parse_command_substitution` for the closing bracket, from one
position on; `startsFound` counts the brackets opened since. -/
def substitutionEnd (startsFound : Nat) : List CString → Option Nat
  | [] => none
  | token :: rest =>
      let startsFound := if token = commandSubstitutionStart then startsFound + 1 else startsFound
      if token = commandSubstitutionEnd then
        if startsFound = 0 then some 0
        else (substitutionEnd (startsFound - 1) rest).map (· + 1)
      else (substitutionEnd startsFound rest).map (· + 1)

/-- The decimal digits `%d` prints. -/
def decimal : Int → CString
  | .ofNat value => Nat.toDigits 10 value
  | .negSucc value => '-' :: Nat.toDigits 10 (value + 1)

/-- `snprintf(dev_file, PATH_MAX, "/dev/fd/%d", fd)`. -/
def devFile (fd : Int) : CString := "/dev/fd/".toList ++ decimal fd

/-- `remove_extra_pipes`, from one position of the string on. -/
def removeExtraPipes (foundSubstitutions : Int) : CString → CString
  | [] => []
  | char :: rest =>
      if char = '(' then char :: removeExtraPipes (foundSubstitutions + 1) rest
      else if char = ')' then char :: removeExtraPipes (foundSubstitutions - 1) rest
      else if char = '|' ∧ foundSubstitutions = 0 then []
      else char :: removeExtraPipes foundSubstitutions rest

/-- The parameters of a call of `parse_command_call` that its token loop does not change. -/
structure CallContext where
  commandString : CString
  insideSubstitution : Bool
  insidePipeline : Bool
  deriving DecidableEq, Repr

/-- The `error` exit of `parse_command_call`. -/
def abandonCommandCall (builder : CommandCallBuilder) (state : ParserState) :
    Option CallRef × ParserState :=
  (none,
    { state with
      kernel := closeUnusedFileDescriptorsFromArray state.kernel builder.fds.toList })

/-- `parse_command_call` after its token loop. `parsed` is the token array, with
`none` for the entries the loop has set to `NULL`. -/
def finishCommandCall (context : CallContext) (builder : CommandCallBuilder)
    (parsed : List (Option CString)) (state : ParserState) : Option CallRef × ParserState :=
  if context.insidePipeline ∧ builder.fds.stdin ≠ uninitializedFd then
    abandonCommandCall builder (state.report parseError)
  -- Inside a pipeline but not at its end: the standard output may not be redirected.
  else if context.insidePipeline ∧
      ¬ (state.lastParsedCommandCall = none ∨ state.lastParsedCommandCallSubstitution = none) ∧
      builder.fds.stdout ≠ uninitializedFd then
    abandonCommandCall builder (state.report parseError)
  else
    let commandCall := buildCommand builder (parsed.filterMap id)
      (removeExtraPipes 0 (trimSpaces context.commandString))
    let ref := state.heap.length
    let state := { state with heap := state.heap ++ [commandCall] }
    let state :=
      if state.lastParsedCommandCall = none ∧ ¬ context.insideSubstitution then
        { state with lastParsedCommandCall := some ref }
      else state
    let state :=
      if state.lastParsedCommandCallSubstitution = none ∧ context.insideSubstitution then
        { state with lastParsedCommandCallSubstitution := some ref }
      else state
    (some ref, state)

theorem substitutionEnd_split {startsFound : Nat} {tokens : List CString} {position : Nat}
    (found : substitutionEnd startsFound tokens = some position) :
    tokens = tokens.take position ++ commandSubstitutionEnd :: tokens.drop (position + 1) := by
  induction tokens generalizing startsFound position with
  | nil => cases found
  | cons token rest ih =>
      have next : ∀ {starts : Nat}, (substitutionEnd starts rest).map (· + 1) = some position →
          token :: rest = (token :: rest).take position ++
            commandSubstitutionEnd :: (token :: rest).drop (position + 1) := by
        intro starts mapped
        obtain ⟨previous, deeper, rfl⟩ := Option.map_eq_some_iff.mp mapped
        simpa using ih deeper
      unfold substitutionEnd at found
      by_cases closing : token = commandSubstitutionEnd
      · have different : commandSubstitutionEnd ≠ commandSubstitutionStart := by decide
        simp only [closing, different, if_true, if_false] at found
        by_cases outermost : startsFound = 0
        · simp only [outermost, if_true, Option.some.injEq] at found
          simp [← found, closing]
        · simp only [outermost, if_false] at found
          exact next found
      · simp only [closing, if_false] at found
        exact next found

private theorem joined_length_le (tokens : List CString) :
    (joinStrings tokens [' ']).length ≤ tokensLength tokens := by
  cases tokens with
  | nil => simp [joinStrings]
  | cons token tokens =>
      have nonempty : token :: tokens ≠ [] := by simp
      have := joinStrings_length nonempty ' '
      omega

mutual

/-- `parse_command_call`. -/
def parseCommandCall (outcomes : FileOutcomes) (commandString : CString)
    (insideSubstitution insidePipeline : Bool) (state : ParserState) :
    Option CallRef × ParserState :=
  let parsed := splitString commandString commandSeparator
  if parsed.size = 0 then (none, state)
  else
    parseTokens outcomes { commandString, insideSubstitution, insidePipeline }
      newCommandCallBuilder [] parsed.tokens state
termination_by commandString.length + 2
decreasing_by
  have := tokensLength_words_le commandSeparator commandString
  rw [splitString_tokens]
  omega

/-- The token loop of `parse_command_call`. The token array is `parsed`, the
entries before the loop's index, followed by `rest`. -/
def parseTokens (outcomes : FileOutcomes) (context : CallContext) (builder : CommandCallBuilder)
    (parsed : List (Option CString)) (rest : List CString) (state : ParserState) :
    Option CallRef × ParserState :=
  match rest with
  | [] => finishCommandCall context builder parsed state
  | token :: rest =>
      if ¬ containsString redirectionCaretSymbols token then
        parseTokens outcomes context builder (parsed ++ [some token]) rest state
      else if rest = [] ∨ parsed = [] then
        abandonCommandCall builder (state.report parseError)
      else if containsString redirectionCaretSymbols (rest.headD []) then
        abandonCommandCall builder (state.report (parseErrorNear token))
      else if token = commandSubstitutionStart then
        match parseCommandSubstitution outcomes builder rest state with
        | (none, state) => abandonCommandCall builder (state.report (parseErrorNear nullText))
        | (some (builder, devFile, position), state) =>
            parseTokens outcomes context builder
              (parsed ++ none :: List.replicate position none ++ [some devFile])
              (rest.drop (position + 1)) state
      else if token = pipeSymbol then
        if builder.fds.stdout ≠ uninitializedFd then
          abandonCommandCall builder (state.report (parseErrorNear token))
        else
          match parseCommandCall outcomes (joinStrings rest [' ']) context.insideSubstitution true
              state with
          | (none, state) => abandonCommandCall builder (state.report (parseErrorNear token))
          | (some pippedCommandCall, state) =>
              match linkPipelines outcomes builder pippedCommandCall state with
              | (none, state) => abandonCommandCall builder (state.report (parseErrorNear token))
              | (some builder, state) =>
                  let state :=
                    if state.lastParsedCommandCall ≠ some pippedCommandCall ∨
                        context.insideSubstitution then
                      state.addCallAtTheEnd pippedCommandCall
                    else state
                  finishCommandCall context builder
                    (parsed ++ List.replicate (rest.length + 1) none) state
      else
        match parseRedirections outcomes builder.fds token (rest.headD []) state with
        | (none, state) => abandonCommandCall builder state
        | (some fds, state) =>
            parseTokens outcomes context { builder with fds } (parsed ++ [none, none]) rest.tail
              state
termination_by tokensLength rest
decreasing_by
  · simp only [tokensLength_cons]
    omega
  · have start : token = commandSubstitutionStart := by assumption
    simp only [tokensLength_cons, start, commandSubstitutionStart, List.length_cons,
      List.length_nil]
    omega
  · have := tokensLength_drop_le rest (position + 1)
    simp only [tokensLength_cons]
    omega
  · have pipe : token = pipeSymbol := by assumption
    have nonempty : rest ≠ [] := fun empty => (by assumption : ¬ (rest = [] ∨ _)) (.inl empty)
    have := joinStrings_length nonempty ' '
    simp only [tokensLength_cons, pipe, pipeSymbol, List.length_singleton]
    omega
  · have := tokensLength_drop_le rest 1
    rw [List.drop_one] at this
    simp only [tokensLength_cons]
    omega

/-- `parse_command_substitution` on the tokens after the opening bracket: the
updated builder, the text that replaces the closing bracket, and its position. -/
def parseCommandSubstitution (outcomes : FileOutcomes) (builder : CommandCallBuilder)
    (rest : List CString) (state : ParserState) :
    Option (CommandCallBuilder × CString × Nat) × ParserState :=
  let state := { state with lastParsedCommandCallSubstitution := none }
  match _found : substitutionEnd 0 rest with
  | none => (none, state)
  | some position =>
      let pipePos := state.openPipes.length
      match state.kernel.pipe outcomes with
      | (none, kernel) => (none, { state with kernel })
      | (some fd, kernel) =>
          let state := { state with kernel }.addPipe fd
          match parseCommandCall outcomes (joinStrings (rest.take position) [' ']) true false
              state with
          | (call, state) =>
              match state.lastParsedCommandCallSubstitution, call with
              | none, _ => (none, state)
              | some _, none => (none, state)
              | some last, some call =>
                  if (state.call last).stdout ≠ stdoutFileno then
                    -- The call is freed before its descriptors are read.
                    (none,
                      { state with
                        kernel := closeUnusedFileDescriptorsFromArray state.kernel
                          (outcomes.freed call).toList }.report parseError)
                  else
                    let state := state.modifyCall last fun call => { call with stdout := fd.2 }
                    let (builder, state) := updateDependencies builder last pipePos state
                    let state := { state with lastParsedCommandCallSubstitution := none }
                    (some (builder, devFile fd.1, position), state.addCallAtTheEnd call)
termination_by tokensLength rest + 1
decreasing_by
  have split := congrArg tokensLength (substitutionEnd_split _found)
  have joined := joined_length_le (rest.take position)
  rw [tokensLength_append, tokensLength_cons] at split
  simp only [commandSubstitutionEnd, List.length_singleton] at split
  omega

end

/-! ## Commands -/

/-- Whether `new_empty_command` allocates a command. -/
def newEmptyCommand (commandString : CString) : Bool :=
  decide (commandString.length ≠ 0) && !isOnlyComposedOf commandString commandSeparator

/-- `close_unused_file_descriptors_helper`. -/
def closeUnusedFileDescriptorsHelper (openPipes : List (Int × Int)) (kernel : Kernel)
    (commandCall : CommandCall) : Kernel :=
  (fillSet 3 [commandCall.stdin, commandCall.stdout, commandCall.stderr]).foldl
    (fun kernel fd => if fd > 2 ∧ ¬ contains2 openPipes fd then kernel.close fd else kernel) kernel

/-- `close_unused_file_descriptors`. -/
def closeUnusedFileDescriptors (commandCalls : List CommandCall) (openPipes : List (Int × Int))
    (kernel : Kernel) : Kernel :=
  commandCalls.foldl (closeUnusedFileDescriptorsHelper openPipes) kernel

/-- The loops that close both ends of every pipe of a command. -/
def closePipes (openPipes : List (Int × Int)) (kernel : Kernel) : Kernel :=
  openPipes.foldl (fun kernel pipe => (kernel.close pipe.1).close pipe.2) kernel

/-- The `error` exit of `parse_command`. -/
def abandonCommand (state : ParserState) : Option Command × ParserState :=
  (none,
    { state with
      kernel := closePipes state.openPipes
        (closeUnusedFileDescriptors (state.commandCalls.map state.call) state.openPipes
          state.kernel) })

/-- `parse_command`. -/
def parseCommand (outcomes : FileOutcomes) (commandString : CString) (state : ParserState) :
    Option Command × ParserState :=
  if ¬ newEmptyCommand commandString then (none, state)
  else
    let state :=
      { state with lastParsedCommandCall := none, commandCalls := [], openPipes := [] }
    match parseCommandCall outcomes commandString false false state with
    | (none, state) =>
        match state.lastParsedCommandCall with
        | some last => abandonCommand (state.addCallAtTheEnd last)
        | none => abandonCommand state
    | (some call, state) =>
        match state.lastParsedCommandCall with
        | none => abandonCommand (state.addCallAtTheEnd call)
        | some last =>
            let state := if last ≠ call then state.addCallAtTheEnd call else state
            let state := state.addCallAtTheBeginning last
            (some
              { commandString := trimSpaces commandString
                commandCalls := state.commandCalls.map state.call
                background := false
                openPipes := state.openPipes },
              { state with lastParsedCommandCall := none })

end Jsh
