import Jsh.Wiring

/-!
# The commands of accepted strings

What `parse_command` returns for a string it accepts: the calls of a wired tree of
the string's words, that of the last stage first, and the pipes of its links.
-/

set_option autoImplicit false

namespace Jsh

/-- The state in which `parse_command` parses its string. -/
def ParserState.entering (state : ParserState) : ParserState :=
  { state with lastParsedCommandCall := none, commandCalls := [], openPipes := [] }

/-- The calls of a command whose first parsed call is `last` and whose outermost
call is `call`. -/
def ParserState.listing (state : ParserState) (last call : CallRef) : ParserState :=
  { state with
    commandCalls := last :: (state.commandCalls ++ if last ≠ call then [call] else []) }

theorem ParserState.listing_eq (state : ParserState) (last call : CallRef) :
    (if last ≠ call then state.addCallAtTheEnd call else state).addCallAtTheBeginning last =
      state.listing last call := by
  by_cases same : last = call
  · simp [same, ParserState.listing, ParserState.addCallAtTheBeginning]
  · simp [same, ParserState.listing, ParserState.addCallAtTheBeginning,
      ParserState.addCallAtTheEnd]

/-- `parse_command` once its string has been parsed. -/
def concludeCommand (commandString : CString) :
    Option CallRef × ParserState → Option Command × ParserState
  | (none, state) =>
      match state.lastParsedCommandCall with
      | some last => abandonCommand (state.addCallAtTheEnd last)
      | none => abandonCommand state
  | (some call, state) =>
      match state.lastParsedCommandCall with
      | none => abandonCommand (state.addCallAtTheEnd call)
      | some last =>
          (some
            { commandString := trimSpaces commandString
              commandCalls := (state.listing last call).commandCalls.map state.call
              background := false
              openPipes := state.openPipes },
            { state.listing last call with lastParsedCommandCall := none })

theorem parseCommand_blank {outcomes : FileOutcomes} {commandString : CString}
    {state : ParserState} (blank : newEmptyCommand commandString = false) :
    parseCommand outcomes commandString state = (none, state) := by
  simp [parseCommand, blank]

theorem parseCommand_eq {outcomes : FileOutcomes} {commandString : CString} {state : ParserState}
    (nonblank : newEmptyCommand commandString = true) :
    parseCommand outcomes commandString state =
      concludeCommand commandString
        (parseCommandCall outcomes commandString false false state.entering) := by
  cases called : parseCommandCall outcomes commandString false false state.entering with
  | mk result state₁ =>
      simp only [ParserState.entering] at called
      simp only [parseCommand, nonblank, not_true, if_false, called]
      cases result with
      | none => rfl
      | some call =>
          cases chosen : state₁.lastParsedCommandCall with
          | none => simp only [concludeCommand, chosen]
          | some last =>
              simp only [concludeCommand, chosen, ParserState.listing_eq]
              rfl

theorem ready_entering {state : ParserState} (valid : state.kernel.Valid) :
    Ready false state.entering :=
  ⟨valid, rfl, fun impossible => absurd impossible (by decide)⟩

/-- `parse_command` has accepted its string and read `tree`. -/
structure CommandRead (outcomes : FileOutcomes) (commandString : CString)
    (state state' : ParserState) (command : Command) (tree : Pipeline Labels.wired) : Prop where
  words : tree.words = words commandSeparator commandString
  placed : tree.Placed true true
  wires : Wires outcomes state.entering state' tree.links tree.opens tree.redirections []
    tree.files
  openPipes : command.openPipes = tree.links.map (·.ends)
  calls : command.commandCalls = tree.lastCall commandString none none ::
    (tree.calls commandString none none).eraseIdx tree.lastPosition
  background : command.background = false
  commandString : command.commandString = trimSpaces commandString
  lastCall : state'.lastParsedCommandCall = none
  lastCallSubstitution : state'.lastParsedCommandCallSubstitution =
    if commandSubstitutionStart ∈ tree.words then none
    else state.lastParsedCommandCallSubstitution
  unblocked : Unblocked false false tree.words tree.pipes state

/-- Each call of the tree is in the command once. -/
theorem CommandRead.perm {outcomes : FileOutcomes} {commandString : CString}
    {state state' : ParserState} {command : Command} {tree : Pipeline Labels.wired}
    (read : CommandRead outcomes commandString state state' command tree) :
    command.commandCalls.Perm (tree.calls commandString none none) := by
  obtain ⟨inside, entry⟩ :=
    List.getElem?_eq_some_iff.mp (tree.calls_lastPosition commandString none none)
  rw [read.calls, ← entry]
  exact List.getElem_cons_eraseIdx_perm inside

theorem CommandRead.first {outcomes : FileOutcomes} {commandString : CString}
    {state state' : ParserState} {command : Command} {tree : Pipeline Labels.wired}
    (read : CommandRead outcomes commandString state state' command tree) :
    command.commandCalls.head? = some (tree.lastCall commandString none none) := by
  rw [read.calls, List.head?_cons]

/-- The calls behind a list of all references but one. -/
private theorem map_getD_filter (heap calls : List CommandCall) {last : CallRef}
    (inside : last < calls.length) :
    ((List.range' heap.length calls.length).filter (· != heap.length + last)).map
      (fun ref => (heap ++ calls).getD ref default) = calls.eraseIdx last := by
  have place : (List.range' heap.length calls.length).idxOf (heap.length + last) = last := by
    have bound : last < (List.range' heap.length calls.length).length := by simpa using inside
    have found := List.Nodup.idxOf_getElem List.nodup_range' last bound
    simpa using found
  have all : (List.range' heap.length calls.length).map
      (fun ref => (heap ++ calls).getD ref default) = calls := by
    apply List.ext_getElem
    · simp
    · intro index _ bound
      simp [bound]
  rw [← List.Nodup.erase_eq_filter List.nodup_range', List.erase_eq_eraseIdx_of_idxOf place,
    ← List.eraseIdx_map, all]

/-- The calls listed at the end are all those of the tree, the last stage's first. -/
private theorem listing_eq_filter {outcomes : FileOutcomes} {commandString : CString}
    {state state₁ : ParserState} {call : CallRef} {tree : Pipeline Labels.wired}
    (read : CallRead outcomes commandString false false state.entering state₁ call tree) :
    (state₁.listing (state.heap.length + tree.lastPosition) call).commandCalls =
      (state.heap.length + tree.lastPosition) ::
        (List.range' state.heap.length (tree.calls commandString none none).length).filter
          (· != state.heap.length + tree.lastPosition) := by
  have positive := tree.size_pos
  have ref : call = state.heap.length + (tree.size - 1) := read.ref
  have listed : state₁.commandCalls = listedCalls false state.heap.length (tree.size - 1)
      (state.heap.length + tree.lastPosition) := by
    rw [read.listed]
    rfl
  have all := listedCalls_succ false state.heap.length (tree.size - 1)
    (state.heap.length + tree.lastPosition)
  rw [Nat.sub_add_cancel positive] at all
  simp only [ParserState.listing, listed, ref, Pipeline.calls_length]
  simp only [Bool.false_eq_true, or_false] at all
  rw [← all]
  simp [listedCalls]

/-- A command that `parse_command` returns is that of the tree its string was read as. -/
theorem parseCommand_called {outcomes : FileOutcomes} {commandString : CString}
    {state state' : ParserState} {command : Command} (valid : state.kernel.Valid)
    (parsed : parseCommand outcomes commandString state = (some command, state')) :
    ∃ call state₁ tree,
      parseCommandCall outcomes commandString false false state.entering = (some call, state₁) ∧
        CallRead outcomes commandString false false state.entering state₁ call tree ∧
        CommandRead outcomes commandString state state' command tree := by
  cases nonblank : newEmptyCommand commandString with
  | false => simp [parseCommand_blank nonblank] at parsed
  | true =>
      rw [parseCommand_eq nonblank] at parsed
      cases called : parseCommandCall outcomes commandString false false state.entering with
      | mk result state₁ =>
          cases result with
          | none =>
              cases last : state₁.lastParsedCommandCall <;>
                simp [called, concludeCommand, last, abandonCommand] at parsed
          | some call =>
              obtain ⟨tree, read⟩ := parseCommandCall_read (ready_entering valid) called
              have lastCall := read.globals.lastCall
              simp only [Bool.false_eq_true, if_false] at lastCall
              simp only [called, concludeCommand, lastCall, Prod.mk.injEq,
                Option.some.injEq] at parsed
              obtain ⟨rfl, rfl⟩ := parsed
              refine ⟨call, state₁, tree, rfl, read, ?_⟩
              constructor
              case words => exact read.words
              case placed => exact read.placed
              case wires => exact read.wires.ofSame ⟨rfl, rfl, rfl⟩ ⟨rfl, rfl, rfl⟩
              case openPipes =>
                rw [read.wires.openPipes]
                rfl
              case calls =>
                have heap : state₁.heap = state.heap ++ tree.calls commandString none none :=
                  read.heap
                have inside : tree.lastPosition < (tree.calls commandString none none).length := by
                  rw [Pipeline.calls_length]
                  exact tree.lastPosition_lt_size
                have others := map_getD_filter state.heap (tree.calls commandString none none) inside
                rw [← heap] at others
                have shape := congrArg (List.map state₁.call) (listing_eq_filter read)
                have last : state₁.call (state.heap.length + tree.lastPosition) =
                    tree.lastCall commandString none none := read.call_last
                rw [List.map_cons, last] at shape
                exact shape.trans (congrArg _ others)
              case background => rfl
              case commandString => rfl
              case lastCall => rfl
              case lastCallSubstitution => exact read.globals.lastCallSubstitution
              case unblocked => exact read.unblocked

theorem parseCommand_some {outcomes : FileOutcomes} {commandString : CString}
    {state state' : ParserState} {command : Command} (valid : state.kernel.Valid)
    (parsed : parseCommand outcomes commandString state = (some command, state')) :
    ∃ tree, CommandRead outcomes commandString state state' command tree := by
  obtain ⟨_, _, tree, _, _, read⟩ := parseCommand_called valid parsed
  exact ⟨tree, read⟩

end Jsh
