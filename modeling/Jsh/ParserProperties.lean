import Mathlib.Data.List.Count
import Jsh.DescriptorProperties
import Jsh.GrammarProperties

/-!
# What a successful parse does

Each function of the parser that succeeds has read a part of a wired tree. `Wires`
states what that adds to the descriptors and pipes, and composes along the parse;
the three specifications add the calls built and the globals.
-/

set_option autoImplicit false

namespace Jsh

/-- From `state` to `state'` the pipes of `links` were made and the files of `opens`
opened, all without failure; `labels` are the descriptors the files received. Among
the open descriptors, those of the links and of `opened` have come in, and those of
`closed` have gone. -/
structure Wires (outcomes : FileOutcomes) (state state' : ParserState) (links : List Link)
    (opens : List (CString × OpenMode)) (labels closed opened : List Descriptor) : Prop where
  valid : state'.kernel.Valid
  openPipes : state'.openPipes = state.openPipes ++ links.map (·.ends)
  indices : links.map (·.index) = List.range' state.openPipes.length links.length
  serials : links.map (·.serial) = List.range' state.kernel.pipes links.length
  pipes : state'.kernel.pipes = state.kernel.pipes + links.length
  pipesSucceed : ∀ link ∈ links, outcomes.pipeSucceeds link.serial = true
  endsAbove : ∀ link ∈ links, 2 < link.readEnd ∧ 2 < link.writeEnd
  opensMade : state'.kernel.opens = state.kernel.opens ++ opens
  opensSucceed : ∀ index < opens.length,
    outcomes.openError (state.kernel.opens.length + index) = none
  files : labels.map (·.file) =
    (List.range' state.kernel.opens.length opens.length).map OpenFile.file
  descriptors : ∀ descriptor,
    state'.kernel.descriptors.count descriptor + closed.count descriptor =
      state.kernel.descriptors.count descriptor +
        (links.flatMap Link.descriptors).count descriptor + opened.count descriptor
  openedAbove : ∀ descriptor ∈ opened, 2 < descriptor.number
  messages : state'.messages = state.messages

theorem Wires.refl {outcomes : FileOutcomes} {state : ParserState} (valid : state.kernel.Valid) :
    Wires outcomes state state [] [] [] [] [] := by
  constructor <;> simp [valid]

theorem Wires.trans {outcomes : FileOutcomes} {state middle state' : ParserState}
    {links links' : List Link} {opens opens' : List (CString × OpenMode)}
    {labels labels' closed closed' opened opened' : List Descriptor}
    (first : Wires outcomes state middle links opens labels closed opened)
    (second : Wires outcomes middle state' links' opens' labels' closed' opened') :
    Wires outcomes state state' (links ++ links') (opens ++ opens') (labels ++ labels')
      (closed ++ closed') (opened ++ opened') where
  valid := second.valid
  openPipes := by rw [second.openPipes, first.openPipes, List.map_append, List.append_assoc]
  indices := by
    rw [List.map_append, first.indices, second.indices, first.openPipes, List.length_append,
      List.length_map, List.length_append, List.range'_append_1]
  serials := by
    rw [List.map_append, first.serials, second.serials, first.pipes, List.length_append,
      List.range'_append_1]
  pipes := by rw [second.pipes, first.pipes, List.length_append, Nat.add_assoc]
  pipesSucceed := by
    intro link member
    rcases List.mem_append.mp member with member | member
    · exact first.pipesSucceed link member
    · exact second.pipesSucceed link member
  endsAbove := by
    intro link member
    rcases List.mem_append.mp member with member | member
    · exact first.endsAbove link member
    · exact second.endsAbove link member
  opensMade := by rw [second.opensMade, first.opensMade, List.append_assoc]
  opensSucceed := by
    intro index bound
    by_cases early : index < opens.length
    · exact first.opensSucceed index early
    · have later := second.opensSucceed (index - opens.length) (by
        rw [List.length_append] at bound
        omega)
      rw [first.opensMade, List.length_append] at later
      rw [show state.kernel.opens.length + index =
        state.kernel.opens.length + opens.length + (index - opens.length) by omega]
      exact later
  files := by
    rw [List.map_append, first.files, second.files, first.opensMade, List.length_append,
      List.length_append, ← List.map_append, List.range'_append_1]
  descriptors := by
    intro descriptor
    have one := first.descriptors descriptor
    have two := second.descriptors descriptor
    simp only [List.flatMap_append, List.count_append]
    omega
  openedAbove := by
    intro descriptor member
    rcases List.mem_append.mp member with member | member
    · exact first.openedAbove descriptor member
    · exact second.openedAbove descriptor member
  messages := second.messages.trans first.messages

/-- What went and what came in matter up to descriptors that did both. -/
theorem Wires.congr {outcomes : FileOutcomes} {state state' : ParserState} {links : List Link}
    {opens : List (CString × OpenMode)} {labels closed closed' opened opened' : List Descriptor}
    (wires : Wires outcomes state state' links opens labels closed opened)
    (same : ∀ descriptor, opened'.count descriptor + closed.count descriptor =
      opened.count descriptor + closed'.count descriptor)
    (above : ∀ descriptor ∈ opened', 2 < descriptor.number) :
    Wires outcomes state state' links opens labels closed' opened' :=
  { wires with
    descriptors := by
      intro descriptor
      have one := wires.descriptors descriptor
      have two := same descriptor
      omega
    openedAbove := above }

/-- A change of the calls and the globals alone. -/
theorem Wires.ofSame {outcomes : FileOutcomes} {state state' final final' : ParserState}
    {links : List Link} {opens : List (CString × OpenMode)} {labels closed opened : List Descriptor}
    (wires : Wires outcomes state state' links opens labels closed opened)
    (before : final.kernel = state.kernel ∧ final.openPipes = state.openPipes ∧
      final.messages = state.messages)
    (after : final'.kernel = state'.kernel ∧ final'.openPipes = state'.openPipes ∧
      final'.messages = state'.messages) :
    Wires outcomes final final' links opens labels closed opened := by
  obtain ⟨kernel, openPipes, messages⟩ := before
  obtain ⟨kernel', openPipes', messages'⟩ := after
  constructor <;> try simp only [kernel, openPipes, messages, kernel', openPipes', messages']
  · exact wires.valid
  · exact wires.openPipes
  · exact wires.indices
  · exact wires.serials
  · exact wires.pipes
  · exact wires.pipesSucceed
  · exact wires.endsAbove
  · exact wires.opensMade
  · exact wires.opensSucceed
  · exact wires.files
  · exact wires.descriptors
  · exact wires.openedAbove
  · exact wires.messages

/-! ## Single steps -/

/-- The link whose pipe is the next one. -/
def ParserState.nextLink (state : ParserState) (fd : Int × Int) : Link :=
  { index := state.openPipes.length
    serial := state.kernel.pipes
    readEnd := fd.1
    writeEnd := fd.2 }

theorem wires_pipe {outcomes : FileOutcomes} {state : ParserState} {kernel : Kernel}
    {fd : Int × Int} (valid : state.kernel.Valid)
    (created : state.kernel.pipe outcomes = (some fd, kernel)) :
    Wires outcomes state ({ state with kernel }.addPipe fd) [state.nextLink fd] [] [] [] [] := by
  have above := valid.lt_pipe created
  have valid' := valid.pipe created
  obtain ⟨succeeds, _, _, rfl⟩ := Kernel.pipe_some created
  refine ⟨valid', ?_, ?_, ?_, ?_, ?_, ?_, ?_, ?_, ?_, ?_, ?_, ?_⟩
  all_goals simp [ParserState.addPipe, ParserState.nextLink, Link.ends, Link.descriptors,
    succeeds, above, List.count_cons, Nat.add_assoc]

/-- The descriptors a builder's array holds: those of the redirections of each stream
so far. -/
structure Holds (fds : Fds) (held : Stream → Option Descriptor) (kernel : Kernel) : Prop where
  fds : ∀ stream, fds.get stream = ((held stream).map (·.number)).getD uninitializedFd
  above : ∀ stream descriptor, held stream = some descriptor → 2 < descriptor.number
  present : ∀ descriptor,
    (heldDescriptors held).count descriptor ≤ kernel.descriptors.count descriptor

theorem holds_new (kernel : Kernel) :
    Holds newCommandCallBuilder.fds (fun _ => none) kernel where
  fds := by intro stream; cases stream <;> rfl
  above := by simp
  present := by simp [heldDescriptors]

theorem Holds.mono {fds : Fds} {held : Stream → Option Descriptor} {kernel kernel' : Kernel}
    (holds : Holds fds held kernel) (grown : ∀ descriptor,
      kernel.descriptors.count descriptor ≤ kernel'.descriptors.count descriptor) :
    Holds fds held kernel' :=
  { holds with present := fun descriptor => (holds.present descriptor).trans (grown descriptor) }

theorem Holds.free_iff {fds : Fds} {held : Stream → Option Descriptor} {kernel : Kernel}
    (holds : Holds fds held kernel) (stream : Stream) :
    fds.get stream = uninitializedFd ↔ held stream = none := by
  rw [holds.fds stream]
  cases chosen : held stream with
  | none => simp
  | some descriptor =>
      have above := holds.above stream descriptor chosen
      simp only [Option.map_some, Option.getD_some, uninitializedFd, reduceCtorEq, iff_false]
      omega

theorem Holds.above_heldDescriptors {fds : Fds} {held : Stream → Option Descriptor}
    {kernel : Kernel} (holds : Holds fds held kernel) :
    ∀ descriptor ∈ heldDescriptors held, 2 < descriptor.number := by
  intro descriptor member
  simp only [heldDescriptors, List.mem_append, Option.mem_toList] at member
  rcases member with (member | member) | member <;> exact holds.above _ _ member

theorem Kernel.Valid.count_le_one {kernel : Kernel} (valid : kernel.Valid)
    (descriptor : Descriptor) : kernel.descriptors.count descriptor ≤ 1 :=
  List.nodup_iff_count_le_one.mp valid.distinct.of_map descriptor

/-- The choice after a redirection of `stream`. -/
def redirect (held : Stream → Option Descriptor) (stream : Stream) (descriptor : Descriptor) :
    Stream → Option Descriptor :=
  fun other => if other = stream then some descriptor else held other

theorem count_heldDescriptors_redirect (held : Stream → Option Descriptor) (stream : Stream)
    (opened descriptor : Descriptor) :
    (heldDescriptors (redirect held stream opened)).count descriptor +
        (held stream).toList.count descriptor =
      (heldDescriptors held).count descriptor + [opened].count descriptor := by
  cases stream <;> simp [heldDescriptors, redirect, List.count_cons] <;> omega

theorem Fds.get_set (fds : Fds) (stream other : Stream) (fd : Int) :
    (fds.set stream fd).get other = if other = stream then fd else fds.get other := by
  cases stream <;> cases other <;> rfl

/-- Closing the descriptor an earlier redirection of the stream has opened, if any. -/
theorem close_previous {fds : Fds} {held : Stream → Option Descriptor} {kernel : Kernel}
    (valid : kernel.Valid) (holds : Holds fds held kernel) (stream : Stream) :
    let kernel' := if fds.get stream > 2 then kernel.close (fds.get stream) else kernel
    kernel'.Valid ∧ kernel'.opens = kernel.opens ∧ kernel'.pipes = kernel.pipes ∧
      ∀ descriptor, kernel'.descriptors.count descriptor +
        (held stream).toList.count descriptor = kernel.descriptors.count descriptor := by
  intro kernel'
  have number := holds.fds stream
  cases chosen : held stream with
  | none =>
      have unset : ¬ fds.get stream > 2 := by
        simp only [number, chosen, Option.map_none, Option.getD_none, uninitializedFd]
        decide
      simp [kernel', unset, valid]
  | some previous =>
      have above := holds.above stream previous chosen
      have set : fds.get stream = previous.number := by simp [number, chosen]
      have member : previous ∈ kernel.descriptors := by
        refine List.count_pos_iff.mp (Nat.lt_of_lt_of_le ?_ (holds.present previous))
        exact List.count_pos_iff.mpr (by cases stream <;> simp [heldDescriptors, chosen])
      have closed : kernel' = kernel.close previous.number := by
        simp only [kernel', set, gt_iff_lt, above, if_true]
      rw [closed]
      refine ⟨valid.close above, rfl, rfl, fun descriptor => ?_⟩
      have removed := (Kernel.descriptors_perm_close valid member).count_eq descriptor
      simp only [removed, Option.toList_some, List.count_cons, List.count_nil]
      omega

/-- A redirection that succeeds opens its file, and closes the file an earlier
redirection of the same stream has opened. -/
theorem redirectStream_some {outcomes : FileOutcomes} {stream : Stream} {mode : OpenMode}
    {complaint : CString → Option CString} {fds fds' : Fds} {filename : CString}
    {state state' : ParserState} {held : Stream → Option Descriptor}
    (valid : state.kernel.Valid) (holds : Holds fds held state.kernel)
    (redirected : redirectStream outcomes stream mode complaint fds filename state =
      (some fds', state')) :
    ∃ descriptor, descriptor.file = .file state.kernel.opens.length ∧
      Wires outcomes state state' [] [(filename, mode)] [descriptor] (held stream).toList
        [descriptor] ∧
      Holds fds' (redirect held stream descriptor) state'.kernel ∧
      state' = { state with kernel := state'.kernel } := by
  unfold redirectStream at redirected
  cases opening : state.kernel.openFile outcomes filename mode with
  | mk result kernel =>
      have valid' := valid.openFile opening
      cases result with
      | error error =>
          cases complains : complaint error <;> simp [opening, complains] at redirected
      | ok fd =>
          obtain ⟨succeeds, chosen, rfl⟩ := Kernel.openFile_ok opening
          have above : 2 < fd :=
            valid.lt_of_not_mem (chosen ▸ lowestFree_nonneg _) (chosen ▸ lowestFree_not_mem _)
          simp only [opening, Prod.mk.injEq, Option.some.injEq] at redirected
          obtain ⟨rfl, rfl⟩ := redirected
          have stillHolds : Holds fds held
              { state.kernel with
                opens := state.kernel.opens ++ [(filename, mode)]
                descriptors := ⟨fd, .file state.kernel.opens.length⟩ :: state.kernel.descriptors } :=
            holds.mono fun descriptor => List.count_le_count_cons
          obtain ⟨closedValid, sameOpens, samePipes, count⟩ :=
            close_previous valid' stillHolds stream
          refine ⟨⟨fd, .file state.kernel.opens.length⟩, rfl, ?_, ?_, rfl⟩
          · refine ⟨closedValid, ?_, rfl, rfl, samePipes, ?_, ?_, sameOpens, ?_, rfl, ?_, ?_, rfl⟩
            all_goals simp [succeeds, above]
            intro descriptor
            rw [count descriptor, List.count_cons, List.count_cons, List.count_nil, Nat.zero_add]
          · constructor
            · intro other
              by_cases same : other = stream
              · simp [Fds.get_set, redirect, same]
              · simp only [Fds.get_set, redirect, same, if_false]
                exact holds.fds other
            · intro other descriptor
              by_cases same : other = stream
              · simp only [redirect, same, if_true, Option.some.injEq]
                rintro rfl
                exact above
              · simp only [redirect, same, if_false]
                exact holds.above other descriptor
            · intro descriptor
              have moved := count_heldDescriptors_redirect held stream
                ⟨fd, .file state.kernel.opens.length⟩ descriptor
              have kept := holds.present descriptor
              have closed := count descriptor
              simp only [List.count_cons, List.count_nil, Nat.zero_add] at moved closed ⊢
              omega

/-- What a redirection whose file cannot be opened prints. -/
def Redirection.complaint (symbol : Redirection) (filename error : CString) : Option CString :=
  match symbol with
  | .input => some ("jsh: ".toList ++ filename ++ ": ".toList ++ error ++ "\n".toList)
  | .output | .error => some (cannotOverwrite filename)
  | _ => none

theorem parseRedirections_eq (outcomes : FileOutcomes) (fds : Fds) (symbol : Redirection)
    (filename : CString) (state : ParserState) :
    parseRedirections outcomes fds symbol.text filename state =
      redirectStream outcomes symbol.stream symbol.mode (symbol.complaint filename) fds filename
        state := by
  cases symbol <;> rfl

/-- The symbols of the token loop's last branch: a redirection, or a stray closing bracket. -/
theorem redirection_of_symbol {token : CString}
    (symbol : containsString redirectionCaretSymbols token = true)
    (noStart : token ≠ commandSubstitutionStart) (noPipe : token ≠ pipeSymbol) :
    token = commandSubstitutionEnd ∨ ∃ symbol : Redirection, token = symbol.text := by
  simp only [containsString, redirectionCaretSymbols, List.any_cons, List.any_nil, Bool.or_false,
    Bool.or_eq_true, beq_iff_eq] at symbol
  rcases symbol with rfl | rfl | rfl | rfl | rfl | rfl | rfl | rfl | rfl | rfl
  · exact .inr ⟨.output, rfl⟩
  · exact .inr ⟨.input, rfl⟩
  · exact .inr ⟨.outputTruncate, rfl⟩
  · exact .inr ⟨.outputAppend, rfl⟩
  · exact .inr ⟨.error, rfl⟩
  · exact .inr ⟨.errorTruncate, rfl⟩
  · exact .inr ⟨.errorAppend, rfl⟩
  · exact absurd rfl noStart
  · exact .inl rfl
  · exact absurd rfl noPipe

theorem parseRedirections_end (outcomes : FileOutcomes) (fds : Fds) (filename : CString)
    (state : ParserState) :
    parseRedirections outcomes fds commandSubstitutionEnd filename state = (none, state) := rfl

/-! ## The branches of the parser -/

/-- Parsing a joined list of tokens finds these tokens again. -/
theorem words_joined {tokens : List CString}
    (clean : ∀ token ∈ tokens, token ≠ [] ∧ ' ' ∉ token) :
    words commandSeparator (joinStrings tokens [' ']) = tokens := by
  rw [← commandSeparator_single]
  exact words_joinStrings commandSeparator_single clean

section Branches

variable {outcomes : FileOutcomes} {context : CallContext} {builder : CommandCallBuilder}
  {before : List (Option CString)} {token : CString} {rest : List CString} {state : ParserState}

theorem parseTokens_nil :
    parseTokens outcomes context builder before [] state =
      finishCommandCall context builder before state := by
  rw [parseTokens]

theorem parseTokens_word (ordinary : containsString redirectionCaretSymbols token = false) :
    parseTokens outcomes context builder before (token :: rest) state =
      parseTokens outcomes context builder (before ++ [some token]) rest state := by
  rw [parseTokens]
  simp [ordinary]

theorem parseTokens_misplaced (symbol : containsString redirectionCaretSymbols token = true)
    (outside : rest = [] ∨ before = []) :
    parseTokens outcomes context builder before (token :: rest) state =
      abandonCommandCall builder (state.report parseError) := by
  rw [parseTokens]
  simp only [symbol, not_true, if_false, outside, if_true]

theorem parseTokens_adjacent (symbol : containsString redirectionCaretSymbols token = true)
    (inside : ¬ (rest = [] ∨ before = []))
    (adjacent : containsString redirectionCaretSymbols (rest.headD []) = true) :
    parseTokens outcomes context builder before (token :: rest) state =
      abandonCommandCall builder (state.report (parseErrorNear token)) := by
  rw [parseTokens]
  simp only [symbol, not_true, if_false, inside, adjacent, if_true]

theorem parseTokens_substitution (inside : ¬ (rest = [] ∨ before = []))
    (apart : containsString redirectionCaretSymbols (rest.headD []) = false) :
    parseTokens outcomes context builder before (commandSubstitutionStart :: rest) state =
      match parseCommandSubstitution outcomes builder rest state with
      | (none, state) => abandonCommandCall builder (state.report (parseErrorNear nullText))
      | (some (builder, devFile, position), state) =>
          parseTokens outcomes context builder
            (before ++ none :: List.replicate position none ++ [some devFile])
            (rest.drop (position + 1)) state := by
  have symbol : containsString redirectionCaretSymbols commandSubstitutionStart = true := by decide
  have step := parseTokens.eq_2 outcomes context builder before state commandSubstitutionStart rest
  simp only [symbol, not_true, if_false, inside, apart, Bool.false_eq_true, if_true] at step
  exact step

/-- Lists the call a pipe symbol leads to, unless it is the last one of the whole command. -/
def ParserState.listPipped (state : ParserState) (insideSubstitution : Bool) (call : CallRef) :
    ParserState :=
  { state with
    commandCalls := state.commandCalls ++
      if state.lastParsedCommandCall ≠ some call ∨ insideSubstitution = true then [call] else [] }

theorem ParserState.listPipped_eq (state : ParserState) (insideSubstitution : Bool)
    (call : CallRef) :
    (if state.lastParsedCommandCall ≠ some call ∨ insideSubstitution = true then
      state.addCallAtTheEnd call else state) = state.listPipped insideSubstitution call := by
  by_cases listed : state.lastParsedCommandCall ≠ some call ∨ insideSubstitution = true
  · simp only [listed, if_true, ParserState.listPipped]
    rfl
  · simp only [listed, if_false, ParserState.listPipped, List.append_nil]

theorem parseTokens_pipe (inside : ¬ (rest = [] ∨ before = []))
    (apart : containsString redirectionCaretSymbols (rest.headD []) = false) :
    parseTokens outcomes context builder before (pipeSymbol :: rest) state =
      if builder.fds.stdout ≠ uninitializedFd then
        abandonCommandCall builder (state.report (parseErrorNear pipeSymbol))
      else
        match parseCommandCall outcomes (joinStrings rest [' ']) context.insideSubstitution true
            state with
        | (none, state) => abandonCommandCall builder (state.report (parseErrorNear pipeSymbol))
        | (some pippedCommandCall, state) =>
            match linkPipelines outcomes builder pippedCommandCall state with
            | (none, state) =>
                abandonCommandCall builder (state.report (parseErrorNear pipeSymbol))
            | (some builder, state) =>
                finishCommandCall context builder
                  (before ++ List.replicate (rest.length + 1) none)
                  (state.listPipped context.insideSubstitution pippedCommandCall) := by
  have symbol : containsString redirectionCaretSymbols pipeSymbol = true := by decide
  have noStart : pipeSymbol ≠ commandSubstitutionStart := by decide
  have step := parseTokens.eq_2 outcomes context builder before state pipeSymbol rest
  simp only [symbol, not_true, if_false, inside, apart, Bool.false_eq_true, noStart, if_true,
    ParserState.listPipped_eq] at step
  exact step

theorem parseTokens_redirection (symbol : containsString redirectionCaretSymbols token = true)
    (inside : ¬ (rest = [] ∨ before = []))
    (apart : containsString redirectionCaretSymbols (rest.headD []) = false)
    (noStart : ¬ token = commandSubstitutionStart) (noPipe : ¬ token = pipeSymbol) :
    parseTokens outcomes context builder before (token :: rest) state =
      match parseRedirections outcomes builder.fds token (rest.headD []) state with
      | (none, state) => abandonCommandCall builder state
      | (some fds, state) =>
          parseTokens outcomes context { builder with fds } (before ++ [none, none]) rest.tail
            state := by
  have step := parseTokens.eq_2 outcomes context builder before state token rest
  simp only [symbol, not_true, if_false, inside, apart, Bool.false_eq_true, noStart, noPipe] at step
  exact step

theorem parseTokens_redirection_text {symbol : Redirection} (inside : ¬ (rest = [] ∨ before = []))
    (apart : containsString redirectionCaretSymbols (rest.headD []) = false) :
    parseTokens outcomes context builder before (symbol.text :: rest) state =
      match parseRedirections outcomes builder.fds symbol.text (rest.headD []) state with
      | (none, state) => abandonCommandCall builder state
      | (some fds, state) =>
          parseTokens outcomes context { builder with fds } (before ++ [none, none]) rest.tail
            state := by
  have isSymbol : containsString redirectionCaretSymbols symbol.text = true := by
    cases symbol <;> decide
  obtain ⟨noStart, _, noPipe⟩ := symbol.text_ne
  exact parseTokens_redirection isSymbol inside apart noStart noPipe

/-- The state after a call has been made to read from a new pipe. -/
def ParserState.linked (state : ParserState) (kernel : Kernel) (fd : Int × Int) (call : CallRef) :
    ParserState :=
  { state with
    kernel
    heap := state.heap.modify call (·.readFrom (state.nextLink fd))
    openPipes := state.openPipes ++ [fd] }

/-- The builder of a stage whose standard output goes to a link. -/
def CommandCallBuilder.writingTo (builder : CommandCallBuilder) (link : Link) :
    CommandCallBuilder :=
  { builder with
    writingPipes := builder.writingPipes ++ [link.index]
    fds := { builder.fds with stdout := link.writeEnd } }

theorem linkPipelines_none {call : CallRef} {kernel : Kernel}
    (failed : state.kernel.pipe outcomes = (none, kernel)) :
    linkPipelines outcomes builder call state = (none, { state with kernel }) := by
  simp only [linkPipelines, failed]

theorem linkPipelines_some {call : CallRef} {kernel : Kernel} {fd : Int × Int}
    (created : state.kernel.pipe outcomes = (some fd, kernel)) :
    linkPipelines outcomes builder call state =
      (some (builder.writingTo (state.nextLink fd)), state.linked kernel fd call) := by
  simp only [linkPipelines, created]
  rfl

theorem parseCommandSubstitution_unclosed (unclosed : substitutionEnd 0 rest = none) :
    parseCommandSubstitution outcomes builder rest state =
      (none, { state with lastParsedCommandCallSubstitution := none }) := by
  rw [parseCommandSubstitution]
  split
  · rfl
  · rename_i found
    rw [unclosed] at found
    cases found

/-- The state in which the pipeline of a substitution is parsed. -/
def ParserState.substituting (state : ParserState) (kernel : Kernel) (fd : Int × Int) :
    ParserState :=
  { state with
    kernel
    lastParsedCommandCallSubstitution := none
    openPipes := state.openPipes ++ [fd] }

theorem parseCommandSubstitution_pipe_none {position : Nat} {kernel : Kernel}
    (ended : substitutionEnd 0 rest = some position)
    (failed : state.kernel.pipe outcomes = (none, kernel)) :
    parseCommandSubstitution outcomes builder rest state =
      (none, { state with lastParsedCommandCallSubstitution := none, kernel }) := by
  rw [parseCommandSubstitution]
  split
  · rename_i found
    rw [ended] at found
    cases found
  · simp only [failed]

/-- `parse_command_substitution` once its pipeline has been parsed. -/
def concludeSubstitution (outcomes : FileOutcomes) (builder : CommandCallBuilder) (link : Link)
    (position : Nat) :
    Option CallRef × ParserState → Option (CommandCallBuilder × CString × Nat) × ParserState
  | (call, state) =>
      match state.lastParsedCommandCallSubstitution, call with
      | some last, some call =>
          if (state.call last).stdout ≠ stdoutFileno then
            (none,
              { state with
                kernel := closeUnusedFileDescriptorsFromArray state.kernel
                  (outcomes.freed call).toList
                messages := state.messages ++ [parseError] })
          else
            (some ({ builder with readingPipes := builder.readingPipes ++ [link.index] },
                devFile link.readEnd, position),
              { state with
                heap := state.heap.modify last (·.writeTo link)
                lastParsedCommandCallSubstitution := none
                commandCalls := state.commandCalls ++ [call] })
      | _, _ => (none, state)

/-- A substitution that is not refused has a pipeline, ends at its bracket and reads no freed
call. -/
theorem concludeSubstitution_some {link : Link} {position : Nat}
    {called : Option CallRef × ParserState} {result : CommandCallBuilder × CString × Nat}
    (concluded : concludeSubstitution outcomes builder link position called =
      (some result, state)) :
    called.1.isSome = true ∧ result.2.2 = position ∧ ∀ freed,
      concludeSubstitution { outcomes with freed } builder link position called =
        (some result, state) := by
  obtain ⟨call, before⟩ := called
  cases last : before.lastParsedCommandCallSubstitution with
  | none => simp [concludeSubstitution, last] at concluded
  | some ref =>
      cases call with
      | none => simp [concludeSubstitution, last] at concluded
      | some call =>
          simp only [concludeSubstitution, last] at concluded ⊢
          split at concluded
          · cases concluded
          · next kept =>
            cases concluded
            exact ⟨rfl, rfl, fun _ => if_neg kept⟩

theorem parseCommandSubstitution_parsed {position : Nat} {kernel : Kernel} {fd : Int × Int}
    (ended : substitutionEnd 0 rest = some position)
    (created : state.kernel.pipe outcomes = (some fd, kernel)) :
    parseCommandSubstitution outcomes builder rest state =
      concludeSubstitution outcomes builder (state.nextLink fd) position
        (parseCommandCall outcomes (joinStrings (rest.take position) [' ']) true false
          (state.substituting kernel fd)) := by
  rw [parseCommandSubstitution]
  split
  · rename_i found
    rw [ended] at found
    cases found
  · rename_i found same
    rw [ended, Option.some.injEq] at same
    subst same
    cases called : parseCommandCall outcomes (joinStrings (rest.take position) [' ']) true false
        (state.substituting kernel fd) with
    | mk call state₁ =>
        simp only [ParserState.substituting] at called
        simp only [created, ParserState.addPipe, called]
        cases lastCall : state₁.lastParsedCommandCallSubstitution with
        | none => simp only [concludeSubstitution, lastCall]
        | some last =>
            cases call with
            | none => simp only [concludeSubstitution, lastCall]
            | some call =>
                simp only [concludeSubstitution, lastCall, updateDependencies,
                  ParserState.modifyCall, ParserState.addCallAtTheEnd, ParserState.report,
                  List.modify_modify_eq]
                rfl

end Branches

theorem parseCommandCall_blank {outcomes : FileOutcomes} {commandString : CString}
    {insideSubstitution insidePipeline : Bool} {state : ParserState}
    (blank : words commandSeparator commandString = []) :
    parseCommandCall outcomes commandString insideSubstitution insidePipeline state =
      (none, state) := by
  have size : (splitString commandString commandSeparator).size = 0 := by
    rw [splitString_size, splitString_tokens, blank]
    rfl
  rw [parseCommandCall]
  simp only [size, if_true]

theorem parseCommandCall_words {outcomes : FileOutcomes} {commandString : CString}
    {insideSubstitution insidePipeline : Bool} {state : ParserState}
    (nonblank : words commandSeparator commandString ≠ []) :
    parseCommandCall outcomes commandString insideSubstitution insidePipeline state =
      parseTokens outcomes { commandString, insideSubstitution, insidePipeline }
        newCommandCallBuilder [] (words commandSeparator commandString) state := by
  have size : (splitString commandString commandSeparator).size ≠ 0 := by
    rw [splitString_size, splitString_tokens]
    exact fun none => nonblank (List.eq_nil_of_length_eq_zero none)
  rw [parseCommandCall]
  simp only [size, if_false, splitString_tokens]

/-- The recursion of the parser, with a hypothesis for each of its branches. -/
theorem parser_induction {outcomes : FileOutcomes}
    {call : CString → Bool → Bool → ParserState → Prop}
    {tokens : CallContext → CommandCallBuilder → List (Option CString) → List CString →
      ParserState → Prop}
    {substitution : CommandCallBuilder → List CString → ParserState → Prop}
    (blank : ∀ commandString insideSubstitution insidePipeline state,
      words commandSeparator commandString = [] →
      call commandString insideSubstitution insidePipeline state)
    (string : ∀ commandString insideSubstitution insidePipeline state,
      words commandSeparator commandString ≠ [] →
      tokens { commandString, insideSubstitution, insidePipeline } newCommandCallBuilder []
        (words commandSeparator commandString) state →
      call commandString insideSubstitution insidePipeline state)
    (nil : ∀ context builder before state, tokens context builder before [] state)
    (word : ∀ context builder before token rest state,
      containsString redirectionCaretSymbols token = false →
      tokens context builder (before ++ [some token]) rest state →
      tokens context builder before (token :: rest) state)
    (misplaced : ∀ context builder before token rest state,
      containsString redirectionCaretSymbols token = true → rest = [] ∨ before = [] →
      tokens context builder before (token :: rest) state)
    (adjacent : ∀ context builder before token rest state,
      containsString redirectionCaretSymbols token = true → ¬ (rest = [] ∨ before = []) →
      containsString redirectionCaretSymbols (rest.headD []) = true →
      tokens context builder before (token :: rest) state)
    (start : ∀ context builder before rest state, ¬ (rest = [] ∨ before = []) →
      containsString redirectionCaretSymbols (rest.headD []) = false →
      substitution builder rest state →
      (∀ builder' path position state₁,
        parseCommandSubstitution outcomes builder rest state =
          (some (builder', path, position), state₁) →
        tokens context builder' (before ++ none :: List.replicate position none ++ [some path])
          (rest.drop (position + 1)) state₁) →
      tokens context builder before (commandSubstitutionStart :: rest) state)
    (pipe : ∀ context builder before rest state, ¬ (rest = [] ∨ before = []) →
      containsString redirectionCaretSymbols (rest.headD []) = false →
      (builder.fds.stdout = uninitializedFd →
        call (joinStrings rest [' ']) context.insideSubstitution true state) →
      tokens context builder before (pipeSymbol :: rest) state)
    (stray : ∀ context builder before rest state, ¬ (rest = [] ∨ before = []) →
      containsString redirectionCaretSymbols (rest.headD []) = false →
      tokens context builder before (commandSubstitutionEnd :: rest) state)
    (redirection : ∀ context builder before (symbol : Redirection) rest state,
      ¬ (rest = [] ∨ before = []) →
      containsString redirectionCaretSymbols (rest.headD []) = false →
      (∀ fds state₁,
        parseRedirections outcomes builder.fds symbol.text (rest.headD []) state =
          (some fds, state₁) →
        tokens context { builder with fds } (before ++ [none, none]) rest.tail state₁) →
      tokens context builder before (symbol.text :: rest) state)
    (body : ∀ builder rest state,
      (∀ position fd kernel, substitutionEnd 0 rest = some position →
        state.kernel.pipe outcomes = (some fd, kernel) →
        call (joinStrings (rest.take position) [' ']) true false (state.substituting kernel fd)) →
      substitution builder rest state) :
    (∀ commandString insideSubstitution insidePipeline state,
      call commandString insideSubstitution insidePipeline state) ∧
    (∀ context builder before rest state, tokens context builder before rest state) ∧
    (∀ builder rest state, substitution builder rest state) := by
  have parsed : ∀ builder rest state position fd kernel, substitutionEnd 0 rest = some position →
      state.kernel.pipe outcomes = (some fd, kernel) →
      call (joinStrings (rest.take position) [' ']) true false (state.substituting kernel fd) →
      substitution builder rest state := by
    intro builder rest state position fd kernel ended created ih
    apply body
    intro position' fd' kernel' ended' created'
    cases ended.symm.trans ended'
    cases created.symm.trans created'
    exact ih
  apply parseCommandCall.mutual_induct outcomes call tokens substitution
  -- Strings.
  case case1 =>
    intro commandString insideSubstitution insidePipeline state parsed empty
    apply blank
    have size : (splitString commandString commandSeparator).size = 0 := empty
    rw [splitString_size, splitString_tokens] at size
    exact List.eq_nil_of_length_eq_zero size
  case case2 =>
    intro commandString insideSubstitution insidePipeline state parsed nonempty ih
    rw [splitString_tokens] at ih
    apply string _ _ _ _ _ ih
    intro none
    apply nonempty
    change (splitString commandString commandSeparator).size = 0
    rw [splitString_size, splitString_tokens, none]
    rfl
  -- Tokens.
  case case3 => exact nil
  case case4 =>
    intro context builder before state token rest ordinary ih
    exact word _ _ _ _ _ _ (by simpa using ordinary) ih
  case case5 =>
    intro context builder before state token rest symbol outside
    exact misplaced _ _ _ _ _ _ (by simpa using symbol) outside
  case case6 =>
    intro context builder before state token rest symbol inside next
    exact adjacent _ _ _ _ _ _ (by simpa using symbol) inside next
  case case7 =>
    intro context builder before state rest inside apart state₁ failed _ ih
    apply start _ _ _ _ _ inside (by simpa using apart) ih
    intro builder' path position state₁ substituted
    rw [failed] at substituted
    cases substituted
  case case8 =>
    intro context builder before state rest inside apart builder' path position state₁ substituted _
      ih ih'
    apply start _ _ _ _ _ inside (by simpa using apart) ih
    intro builder'' path' position' state₂ substituted'
    cases substituted.symm.trans substituted'
    exact ih'
  case case9 =>
    intro context builder before state rest inside apart redirected _ _
    apply pipe _ _ _ _ _ inside (by simpa using apart)
    exact fun free => absurd free redirected
  case case10 =>
    intro context builder before state rest inside apart _ state₁ _ _ _ ih
    exact pipe _ _ _ _ _ inside (by simpa using apart) fun _ => ih
  case case11 =>
    intro context builder before state rest inside apart _ pipped state₁ _ state₂ _ _ _ ih
    exact pipe _ _ _ _ _ inside (by simpa using apart) fun _ => ih
  case case12 =>
    intro context builder before state rest inside apart _ pipped state₁ _ builder' state₂ _ _ _ ih
    exact pipe _ _ _ _ _ inside (by simpa using apart) fun _ => ih
  case case13 =>
    intro context builder before state token rest symbol inside apart noStart noPipe state₁ failed
    obtain rfl | ⟨symbol, rfl⟩ := redirection_of_symbol (by simpa using symbol) noStart noPipe
    · exact stray _ _ _ _ _ inside (by simpa using apart)
    · apply redirection _ _ _ _ _ _ inside (by simpa using apart)
      intro fds state₂ redirected
      rw [failed] at redirected
      cases redirected
  case case14 =>
    intro context builder before state token rest symbol inside apart noStart noPipe fds state₁
      redirected ih
    obtain rfl | ⟨symbol, rfl⟩ := redirection_of_symbol (by simpa using symbol) noStart noPipe
    · exact stray _ _ _ _ _ inside (by simpa using apart)
    · apply redirection _ _ _ _ _ _ inside (by simpa using apart)
      intro fds' state₂ redirected'
      cases redirected.symm.trans redirected'
      exact ih
  -- Substitutions.
  case case15 =>
    intro builder rest state unclosed
    apply body
    intro position fd kernel ended
    rw [unclosed] at ended
    cases ended
  case case16 =>
    intro builder rest state state₁ position ended kernel failed
    apply body
    intro position' fd kernel' _ created
    rw [show state.kernel.pipe outcomes = (none, kernel) from failed] at created
    cases created
  case case17 =>
    intro builder rest state _ position ended fd kernel created _ _ _ _ _ ih
    exact parsed _ _ _ _ _ _ ended created ih
  case case18 =>
    intro builder rest state _ position ended fd kernel created _ _ _ _ _ ih
    exact parsed _ _ _ _ _ _ ended created ih
  case case19 =>
    intro builder rest state _ position ended fd kernel created _ _ _ _ _ _ _ ih
    exact parsed _ _ _ _ _ _ ended created ih
  case case20 =>
    intro builder rest state _ position ended _ fd kernel created _ _ _ _ _ _ _ _ _ _ _ ih
    exact parsed _ _ _ _ _ _ ended created ih

/-- The two checks a stage passes before its call is built. -/
def Finishes (context : CallContext) (builder : CommandCallBuilder) (state : ParserState) : Prop :=
  (context.insidePipeline = true → builder.fds.stdin = uninitializedFd) ∧
    (context.insidePipeline = true → state.lastParsedCommandCall = none ∨
      state.lastParsedCommandCallSubstitution = none ∨ builder.fds.stdout = uninitializedFd)

/-- The state after the call of a stage has been built. -/
def ParserState.finished (context : CallContext) (builder : CommandCallBuilder)
    (before : List (Option CString)) (state : ParserState) : ParserState :=
  { state with
    heap := state.heap ++ [buildCommand builder (before.filterMap id)
      (removeExtraPipes 0 (trimSpaces context.commandString))]
    lastParsedCommandCall :=
      if state.lastParsedCommandCall = none ∧ context.insideSubstitution = false then
        some state.heap.length
      else state.lastParsedCommandCall
    lastParsedCommandCallSubstitution :=
      if state.lastParsedCommandCallSubstitution = none ∧ context.insideSubstitution = true then
        some state.heap.length
      else state.lastParsedCommandCallSubstitution }

theorem finishCommandCall_of_finishes {context : CallContext} {builder : CommandCallBuilder}
    {before : List (Option CString)} {state : ParserState}
    (finishes : Finishes context builder state) :
    finishCommandCall context builder before state =
      (some state.heap.length, state.finished context builder before) := by
  have first : ¬ (context.insidePipeline = true ∧ builder.fds.stdin ≠ uninitializedFd) :=
    fun both => both.2 (finishes.1 both.1)
  have second : ¬ (context.insidePipeline = true ∧
      ¬ (state.lastParsedCommandCall = none ∨ state.lastParsedCommandCallSubstitution = none) ∧
        builder.fds.stdout ≠ uninitializedFd) := by
    have := finishes.2
    grind
  unfold finishCommandCall
  simp only [first, second, if_false, ParserState.finished]
  cases context.insideSubstitution <;> cases state.lastParsedCommandCall <;>
    cases state.lastParsedCommandCallSubstitution <;> simp

theorem finishCommandCall_of_not_finishes {context : CallContext} {builder : CommandCallBuilder}
    {before : List (Option CString)} {state : ParserState}
    (refused : ¬ Finishes context builder state) :
    finishCommandCall context builder before state =
      abandonCommandCall builder (state.report parseError) := by
  unfold finishCommandCall
  by_cases first : context.insidePipeline = true ∧ builder.fds.stdin ≠ uninitializedFd
  · rw [if_pos first]
  · have second : context.insidePipeline = true ∧
        ¬ (state.lastParsedCommandCall = none ∨ state.lastParsedCommandCallSubstitution = none) ∧
          builder.fds.stdout ≠ uninitializedFd := by
      unfold Finishes at refused
      grind
    rw [if_neg first, if_pos second]

theorem finishCommandCall_some {context : CallContext} {builder : CommandCallBuilder}
    {before : List (Option CString)} {state state' : ParserState} {ref : CallRef}
    (finished : finishCommandCall context builder before state = (some ref, state')) :
    Finishes context builder state ∧ ref = state.heap.length ∧
      state' = state.finished context builder before := by
  by_cases finishes : Finishes context builder state
  · rw [finishCommandCall_of_finishes finishes, Prod.mk.injEq, Option.some.injEq] at finished
    exact ⟨finishes, finished.1.symm, finished.2.symm⟩
  · rw [finishCommandCall_of_not_finishes finishes] at finished
    simp [abandonCommandCall] at finished

end Jsh
