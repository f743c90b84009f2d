import Jsh.ParserProperties

/-!
# Specification of the parser

A successful parse of a string has read a wired tree of its words, and has added
the calls of that tree to the state. The proof follows the recursion of the parser,
one lemma for each way in which it can succeed.
-/

set_option autoImplicit false

namespace Jsh

/-- What a stage may start from: no call of the pipeline it belongs to is built yet. -/
structure Ready (insideSubstitution : Bool) (state : ParserState) : Prop where
  valid : state.kernel.Valid
  lastCall : state.lastParsedCommandCall = none
  lastCallSubstitution : insideSubstitution = true → state.lastParsedCommandCallSubstitution = none

/-- The calls a pipeline adds to the command by itself, for `count` calls from
`first` on: outside of substitutions that of its last stage is left out. -/
def listedCalls (insideSubstitution : Bool) (first count : Nat) (last : CallRef) : List CallRef :=
  (List.range' first count).filter fun ref => insideSubstitution || ref != last

theorem listedCalls_append (insideSubstitution : Bool) (first left right : Nat) (last : CallRef) :
    listedCalls insideSubstitution first (left + right) last =
      listedCalls insideSubstitution first left last ++
        listedCalls insideSubstitution (first + left) right last := by
  rw [listedCalls, listedCalls, listedCalls, ← List.filter_append, List.range'_append_1]

theorem listedCalls_of_le {insideSubstitution : Bool} {first count : Nat} {last : CallRef}
    (before : first + count ≤ last) :
    listedCalls insideSubstitution first count last = List.range' first count := by
  rw [listedCalls, List.filter_eq_self]
  intro ref member
  have inside := List.mem_range'_1.mp member
  have different : ref ≠ last := Nat.ne_of_lt (Nat.lt_of_lt_of_le inside.2 before)
  simp [different]

theorem listedCalls_succ (insideSubstitution : Bool) (first count : Nat) (last : CallRef) :
    listedCalls insideSubstitution first (count + 1) last =
      listedCalls insideSubstitution first count last ++
        if last ≠ first + count ∨ insideSubstitution = true then [first + count] else [] := by
  rw [listedCalls_append]
  by_cases same : last = first + count
  · cases insideSubstitution <;> simp [listedCalls, same]
  · simp [listedCalls, same, Ne.symm same]

/-- Inside a substitution the calls before the one returned, and that one. -/
theorem listedCalls_substitution (first : Nat) {labels : Labels} (body : Pipeline labels) :
    listedCalls true first (body.size - 1) (first + body.lastPosition) ++
      [first + (body.size - 1)] = List.range' first body.size := by
  have positive := body.size_pos
  rw [listedCalls, show List.filter (fun ref => true || ref != first + body.lastPosition)
    (List.range' first (body.size - 1)) = List.range' first (body.size - 1) by simp,
    ← List.range'_1_concat, Nat.sub_add_cancel positive]

/-- The globals after a pipeline whose last stage has the call `last`. -/
structure Globals (insideSubstitution : Bool) (words : List CString) (state state' : ParserState)
    (last : CallRef) : Prop where
  lastCall : state'.lastParsedCommandCall = if insideSubstitution then none else some last
  lastCallSubstitution : state'.lastParsedCommandCallSubstitution =
    if insideSubstitution then some last
    else if commandSubstitutionStart ∈ words then none
    else state.lastParsedCommandCallSubstitution

/-- Whether a value left in the second global lets a pipeline of `words` through: only
the check of a stage with neighbours on both sides can fail for it. -/
def Unblocked (insideSubstitution insidePipeline : Bool) (words : List CString) (pipes : Nat)
    (state : ParserState) : Prop :=
  insideSubstitution = true ∨ state.lastParsedCommandCallSubstitution = none ∨
    commandSubstitutionStart ∈ words ∨ pipes + insidePipeline.toNat ≤ 1

/-- The descriptor of each stream after the items of a stage. -/
def Items.held (items : Items Labels.wired) (held : Stream → Option Descriptor) :
    Stream → Option Descriptor :=
  fun stream => (items.lastRedirection stream).or (held stream)

@[simp] theorem Items.held_nil (held : Stream → Option Descriptor) :
    (Items.nil : Items Labels.wired).held held = held := rfl

@[simp] theorem Items.held_word (argument : Word) (rest : Items Labels.wired)
    (held : Stream → Option Descriptor) : (Items.word argument rest).held held = rest.held held :=
  rfl

@[simp] theorem Items.held_substitution (link : Link) (body : Pipeline Labels.wired)
    (rest : Items Labels.wired) (held : Stream → Option Descriptor) :
    (Items.substitution link body rest : Items Labels.wired).held held = rest.held held := rfl

@[simp] theorem Items.held_redirection (symbol : Redirection) (file : Word) (label : Descriptor)
    (rest : Items Labels.wired) (held : Stream → Option Descriptor) :
    (Items.redirection symbol file label rest : Items Labels.wired).held held =
      rest.held (redirect held symbol.stream label) := by
  funext stream
  by_cases same : stream = symbol.stream
  · simp [Items.held, Items.lastRedirection, redirect, same]
  · simp [Items.held, Items.lastRedirection, redirect, same, Ne.symm same]

/-- The call of a stage whose token loop has got as far as `builder` and `before`,
with the descriptors `held`, and has `items` and `next` still to read. -/
def builtCall (context : CallContext) (builder : CommandCallBuilder)
    (held : Stream → Option Descriptor) (before : List (Option CString))
    (items : Items Labels.wired) (next : Next Labels.wired) : CommandCall :=
  let argv := before.filterMap id ++ items.arguments
  { name := argv.headD []
    argc := argv.length
    argv
    commandString := removeExtraPipes 0 (trimSpaces context.commandString)
    readingPipes := builder.readingPipes ++ items.readLinks.map (·.index)
    writingPipes := builder.writingPipes ++ (next.link.map (·.index)).toList
    stdin := ((items.held held .stdin).map (·.number)).getD stdinFileno
    stdout := (((items.held held .stdout).map (·.number)).or
      (next.link.map (·.writeEnd))).getD stdoutFileno
    stderr := ((items.held held .stderr).map (·.number)).getD stderrFileno }

/-- The token loop has read `items` and `next` from `rest`. -/
structure TokensRead (outcomes : FileOutcomes) (context : CallContext)
    (builder : CommandCallBuilder) (held : Stream → Option Descriptor)
    (before : List (Option CString)) (rest : List CString) (state state' : ParserState)
    (ref : CallRef) (items : Items Labels.wired) (next : Next Labels.wired) : Prop where
  words : rest = items.words ++ next.words
  named : before = [] → ∃ name others, items = .word name others
  placed : items.Placed (!context.insidePipeline) next.isLast
  nextPlaced : next.Placed true
  stdinFree : context.insidePipeline = true → held .stdin = none
  stdoutFree : next.isLast = false → held .stdout = none
  wires : Wires outcomes state state' (items.links ++ next.links) (items.opens ++ next.opens)
    (items.redirections ++ next.redirections) (heldDescriptors held)
    (items.files ++ next.files ++ heldDescriptors (items.held held))
  heap : state'.heap = state.heap ++ (items.calls ++ next.calls none ++
    [builtCall context builder held before items next])
  ref : ref = state.heap.length + (items.size + next.size)
  listed : state'.commandCalls = state.commandCalls ++ listedCalls context.insideSubstitution
    state.heap.length (items.size + next.size)
    (state.heap.length + (items.size + next.lastPosition))
  globals : Globals context.insideSubstitution rest state state'
    (state.heap.length + (items.size + next.lastPosition))
  unblocked : Unblocked context.insideSubstitution context.insidePipeline rest next.pipes state

/-- `parse_command_call` has read `tree`. -/
structure CallRead (outcomes : FileOutcomes) (commandString : CString)
    (insideSubstitution insidePipeline : Bool) (state state' : ParserState) (ref : CallRef)
    (tree : Pipeline Labels.wired) : Prop where
  words : tree.words = words commandSeparator commandString
  placed : tree.Placed (!insidePipeline) true
  wires : Wires outcomes state state' tree.links tree.opens tree.redirections [] tree.files
  heap : state'.heap = state.heap ++ tree.calls commandString none none
  ref : ref = state.heap.length + (tree.size - 1)
  listed : state'.commandCalls = state.commandCalls ++ listedCalls insideSubstitution
    state.heap.length (tree.size - 1) (state.heap.length + tree.lastPosition)
  globals : Globals insideSubstitution tree.words state state'
    (state.heap.length + tree.lastPosition)
  unblocked : Unblocked insideSubstitution insidePipeline tree.words tree.pipes state

/-- `parse_command_substitution` has read `body`, linked by `link`. -/
structure SubstitutionRead (outcomes : FileOutcomes) (builder builder' : CommandCallBuilder)
    (rest : List CString) (path : CString) (position : Nat) (state state' : ParserState)
    (link : Link) (body : Pipeline Labels.wired) : Prop where
  split : rest = body.words ++ commandSubstitutionEnd :: rest.drop (position + 1)
  placed : body.Placed true false
  builder : builder' = { builder with readingPipes := builder.readingPipes ++ [link.index] }
  path : path = devFile link.readEnd
  wires : Wires outcomes state state' (link :: body.links) body.opens body.redirections []
    body.files
  heap : state'.heap =
    state.heap ++ body.calls (joinStrings body.words [' ']) none (some link)
  listed : state'.commandCalls =
    state.commandCalls ++ List.range' state.heap.length body.size
  lastCall : state'.lastParsedCommandCall = none
  lastCallSubstitution : state'.lastParsedCommandCallSubstitution = none

theorem CallRead.call_last {outcomes : FileOutcomes} {commandString : CString}
    {insideSubstitution insidePipeline : Bool} {state state' : ParserState} {ref : CallRef}
    {tree : Pipeline Labels.wired}
    (read : CallRead outcomes commandString insideSubstitution insidePipeline state state' ref
      tree) :
    state'.call (state.heap.length + tree.lastPosition) = tree.lastCall commandString none none := by
  rw [ParserState.call, List.getD_eq_getElem?_getD, read.heap,
    List.getElem?_append_right (Nat.le_add_right _ _), Nat.add_sub_cancel_left,
    Pipeline.calls_lastPosition, Option.getD_some]

def CallSpecification (outcomes : FileOutcomes) (commandString : CString)
    (insideSubstitution insidePipeline : Bool) (state : ParserState) : Prop :=
  ∀ ref state', Ready insideSubstitution state →
    parseCommandCall outcomes commandString insideSubstitution insidePipeline state =
      (some ref, state') →
    ∃ tree, CallRead outcomes commandString insideSubstitution insidePipeline state state' ref tree

def TokensSpecification (outcomes : FileOutcomes) (context : CallContext)
    (builder : CommandCallBuilder) (before : List (Option CString)) (rest : List CString)
    (state : ParserState) : Prop :=
  ∀ held ref state', Ready context.insideSubstitution state →
    Holds builder.fds held state.kernel →
    (∀ token ∈ rest, token ≠ [] ∧ ' ' ∉ token) → ¬ (before = [] ∧ rest = []) →
    parseTokens outcomes context builder before rest state = (some ref, state') →
    ∃ items next,
      TokensRead outcomes context builder held before rest state state' ref items next

def SubstitutionSpecification (outcomes : FileOutcomes) (builder : CommandCallBuilder)
    (rest : List CString) (state : ParserState) : Prop :=
  ∀ builder' path position state', state.kernel.Valid → state.lastParsedCommandCall = none →
    (∀ token ∈ rest, token ≠ [] ∧ ' ' ∉ token) →
    parseCommandSubstitution outcomes builder rest state =
      (some (builder', path, position), state') →
    ∃ link body,
      SubstitutionRead outcomes builder builder' rest path position state state' link body

section Steps

variable {outcomes : FileOutcomes} {context : CallContext} {builder : CommandCallBuilder}
  {before : List (Option CString)} {rest : List CString} {state : ParserState}

theorem buildCommand_of_holds {held : Stream → Option Descriptor}
    (holds : Holds builder.fds held state.kernel) :
    buildCommand builder (before.filterMap id) (removeExtraPipes 0 (trimSpaces context.commandString)) =
      builtCall context builder held before .nil .last := by
  have chosen : ∀ stream standard, (if builder.fds.get stream = uninitializedFd then standard
      else builder.fds.get stream) = ((held stream).map (·.number)).getD standard := by
    intro stream standard
    by_cases free : builder.fds.get stream = uninitializedFd
    · simp [free, (holds.free_iff stream).mp free]
    · have used : held stream ≠ none := fun none => free ((holds.free_iff stream).mpr none)
      obtain ⟨descriptor, some⟩ := Option.ne_none_iff_exists'.mp used
      rw [if_neg free, holds.fds stream, some]
      rfl
  have stdin := chosen .stdin stdinFileno
  have stdout := chosen .stdout stdoutFileno
  have stderr := chosen .stderr stderrFileno
  simp only [Fds.get] at stdin stdout stderr
  simp [buildCommand, newCommandCall, builtCall, Items.arguments, Items.readLinks, Next.link,
    Items.held, Items.lastRedirection]
  exact ⟨stdin, stdout, stderr⟩

/-- The token loop at the end of the tokens. -/
theorem tokensSpecification_nil : TokensSpecification outcomes context builder before [] state := by
  intro held ref state' ready holds _ nonempty parsed
  rw [parseTokens_nil] at parsed
  obtain ⟨finishes, rfl, rfl⟩ := finishCommandCall_some parsed
  refine ⟨.nil, .last, ?_⟩
  constructor
  case words => rfl
  case named => intro empty; exact absurd ⟨empty, rfl⟩ nonempty
  case placed => trivial
  case nextPlaced => trivial
  case stdinFree => exact fun inside => (holds.free_iff .stdin).mp (finishes.1 inside)
  case stdoutFree => intro; contradiction
  case wires =>
    refine ((Wires.refl ready.valid).congr ?_ ?_).ofSame ⟨rfl, rfl, rfl⟩ ⟨rfl, rfl, rfl⟩
    · simp [Items.files, Next.files]
    · simpa [Items.files, Next.files] using holds.above_heldDescriptors
  case heap =>
    rw [ParserState.finished, buildCommand_of_holds holds]
    rfl
  case ref => rfl
  case listed => simp [ParserState.finished, listedCalls, Items.size, Next.size]
  case globals =>
    constructor
    · cases inside : context.insideSubstitution <;>
        simp [ParserState.finished, ready.lastCall, inside, Items.size, Next.lastPosition]
    · cases inside : context.insideSubstitution with
      | false => simp [ParserState.finished, inside]
      | true =>
          simp [ParserState.finished, ready.lastCallSubstitution inside, inside, Items.size,
            Next.lastPosition]
  case unblocked =>
    right; right; right
    cases context.insidePipeline <;> decide

/-- A word of the token loop. -/
theorem tokensSpecification_word {token : CString}
    (ordinary : containsString redirectionCaretSymbols token = false)
    (ih : TokensSpecification outcomes context builder (before ++ [some token]) rest state) :
    TokensSpecification outcomes context builder before (token :: rest) state := by
  intro held ref state' ready holds clean _ parsed
  rw [parseTokens_word ordinary] at parsed
  obtain ⟨items, next, read⟩ := ih held ref state' ready holds
    (fun token member => clean token (.tail _ member)) (by simp) parsed
  have noStart : commandSubstitutionStart ≠ token := by
    rintro rfl
    exact absurd ordinary (by decide)
  refine ⟨.word ⟨token, ordinary⟩ items, next, ?_⟩
  constructor
  case words => rw [read.words]; rfl
  case named => exact fun _ => ⟨_, _, rfl⟩
  case placed => exact read.placed
  case nextPlaced => exact read.nextPlaced
  case stdinFree => exact read.stdinFree
  case stdoutFree => exact read.stdoutFree
  case wires => exact read.wires
  case heap =>
    rw [read.heap]
    simp [builtCall, Items.calls, Items.arguments, Items.readLinks]
  case ref => exact read.ref
  case listed => exact read.listed
  case globals =>
    refine ⟨read.globals.lastCall, ?_⟩
    rw [read.globals.lastCallSubstitution]
    simp [noStart]
    rfl
  case unblocked =>
    have unblocked := read.unblocked
    simpa [Unblocked, noStart] using unblocked

/-- A redirection of the token loop. -/
theorem tokensSpecification_redirection {symbol : Redirection} {fds : Fds} {state₁ : ParserState}
    (inside : ¬ (rest = [] ∨ before = []))
    (apart : containsString redirectionCaretSymbols (rest.headD []) = false)
    (redirected : parseRedirections outcomes builder.fds symbol.text (rest.headD []) state =
      (some fds, state₁))
    (ih : TokensSpecification outcomes context { builder with fds } (before ++ [none, none])
      rest.tail state₁) :
    TokensSpecification outcomes context builder before (symbol.text :: rest) state := by
  intro held ref state' ready holds clean _ parsed
  rw [parseTokens_redirection_text inside apart, redirected] at parsed
  cases rest with
  | nil => exact absurd (.inl rfl) inside
  | cons file rest =>
      rw [List.headD_cons] at apart redirected
      rw [parseRedirections_eq] at redirected
      obtain ⟨opened, serial, wires, holds', same⟩ :=
        redirectStream_some ready.valid holds redirected
      have ready' : Ready context.insideSubstitution state₁ := by
        refine ⟨wires.valid, ?_, ?_⟩ <;> rw [same]
        · exact ready.lastCall
        · exact ready.lastCallSubstitution
      obtain ⟨items, next, read⟩ := ih (redirect held symbol.stream opened) ref state' ready' holds'
        (fun token member => clean token (.tail _ (.tail _ member))) (by simp) parsed
      have inputFree : symbol.stream = .stdin → (!context.insidePipeline) = true := by
        intro input
        cases pipeline : context.insidePipeline with
        | false => rfl
        | true => simpa [redirect, input] using read.stdinFree pipeline
      have outputFree : symbol.stream = .stdout → next.isLast = true := by
        intro output
        cases last : next.isLast with
        | true => rfl
        | false => simpa [redirect, output] using read.stdoutFree last
      have ordinary : commandSubstitutionStart ≠ file := by
        rintro rfl
        exact absurd apart (by decide)
      have sameHeap : state₁.heap = state.heap := by rw [same]
      have sameCalls : state₁.commandCalls = state.commandCalls := by rw [same]
      have sameLast : state₁.lastParsedCommandCallSubstitution =
        state.lastParsedCommandCallSubstitution := by rw [same]
      refine ⟨.redirection symbol ⟨file, apart⟩ opened items, next, ?_⟩
      constructor
      case words => rw [List.tail_cons] at read; rw [read.words]; rfl
      case named => exact fun empty => absurd (.inr empty) inside
      case placed => exact ⟨inputFree, outputFree, read.placed⟩
      case nextPlaced => exact read.nextPlaced
      case stdinFree =>
        intro pipeline
        have free := read.stdinFree pipeline
        by_cases chosen : Stream.stdin = symbol.stream
        · simp [redirect, ← chosen] at free
        · simpa [redirect, chosen] using free
      case stdoutFree =>
        intro more
        have free := read.stdoutFree more
        by_cases chosen : Stream.stdout = symbol.stream
        · simp [redirect, ← chosen] at free
        · simpa [redirect, chosen] using free
      case wires =>
        refine (wires.trans read.wires).congr ?_ ?_
        · intro descriptor
          have moved := count_heldDescriptors_redirect held symbol.stream opened descriptor
          simp only [Items.held_redirection, Items.files, List.count_append] at moved ⊢
          omega
        · intro descriptor member
          exact read.wires.openedAbove descriptor (by simpa [Items.files] using member)
      case heap =>
        rw [read.heap, sameHeap]
        simp [builtCall, Items.calls, Items.arguments, Items.readLinks]
      case ref => rw [read.ref, sameHeap]; rfl
      case listed => rw [read.listed, sameHeap, sameCalls]; rfl
      case globals =>
        have noStart := symbol.text_ne.1.symm
        constructor
        · rw [read.globals.lastCall, sameHeap]; rfl
        · rw [read.globals.lastCallSubstitution, sameHeap, sameLast]
          simp [noStart, ordinary]
          rfl
      case unblocked =>
        have noStart := symbol.text_ne.1.symm
        have unblocked := read.unblocked
        rw [Unblocked, sameLast] at unblocked
        simpa [Unblocked, noStart, ordinary] using unblocked

/-- A substitution of the token loop. -/
theorem tokensSpecification_substitution {builder' : CommandCallBuilder} {path : CString}
    {position : Nat} {state₁ : ParserState} (inside : ¬ (rest = [] ∨ before = []))
    (apart : containsString redirectionCaretSymbols (rest.headD []) = false)
    (substituted : parseCommandSubstitution outcomes builder rest state =
      (some (builder', path, position), state₁))
    (substitution : SubstitutionSpecification outcomes builder rest state)
    (ih : TokensSpecification outcomes context builder'
      (before ++ none :: List.replicate position none ++ [some path]) (rest.drop (position + 1))
      state₁) :
    TokensSpecification outcomes context builder before (commandSubstitutionStart :: rest)
      state := by
  intro held ref state' ready holds clean _ parsed
  rw [parseTokens_substitution inside apart, substituted] at parsed
  obtain ⟨link, body, read₁⟩ := substitution _ _ _ _ ready.valid ready.lastCall
    (fun token member => clean token (.tail _ member)) substituted
  have ready' : Ready context.insideSubstitution state₁ :=
    ⟨read₁.wires.valid, read₁.lastCall, fun _ => read₁.lastCallSubstitution⟩
  have holds' : Holds builder'.fds held state₁.kernel := by
    rw [read₁.builder]
    refine holds.mono fun descriptor => ?_
    have count := read₁.wires.descriptors descriptor
    simp only [List.count_nil] at count
    omega
  obtain ⟨items, next, read⟩ := ih held ref state' ready' holds'
    (fun token member => clean token (.tail _ (List.mem_of_mem_drop member))) (by simp) parsed
  have words : rest = body.words ++ commandSubstitutionEnd :: (items.words ++ next.words) := by
    rw [← read.words]
    exact read₁.split
  refine ⟨.substitution link body items, next, ?_⟩
  constructor
  case words => rw [words]; simp [Items.words]
  case named => exact fun empty => absurd (.inr empty) inside
  case placed => exact ⟨read₁.placed, read.placed⟩
  case nextPlaced => exact read.nextPlaced
  case stdinFree => exact read.stdinFree
  case stdoutFree => exact read.stdoutFree
  case wires =>
    have both := read₁.wires.trans read.wires
    simpa only [Items.links, Items.opens, Items.redirections, Items.files, Items.held_substitution,
      List.append_assoc, List.cons_append, List.nil_append] using both
  case heap =>
    rw [read.heap, read₁.heap]
    simp [builtCall, Items.calls, Items.arguments, Items.readLinks, read₁.builder, read₁.path]
  case ref =>
    rw [read.ref, read₁.heap]
    simp [Items.size, Nat.add_assoc]
  case listed =>
    have length : state₁.heap.length = state.heap.length + body.size := by simp [read₁.heap]
    have total : (Items.substitution link body items : Items Labels.wired).size + next.size =
        body.size + (items.size + next.size) := by simp [Items.size, Nat.add_assoc]
    have last : state.heap.length +
        ((Items.substitution link body items : Items Labels.wired).size + next.lastPosition) =
          state.heap.length + body.size + (items.size + next.lastPosition) := by
      simp [Items.size, Nat.add_assoc]
    rw [read.listed, read₁.listed, length, total, last,
      listedCalls_append _ _ body.size (items.size + next.size),
      listedCalls_of_le (Nat.le_add_right _ _), List.append_assoc]
  case globals =>
    have length : state₁.heap.length = state.heap.length + body.size := by simp [read₁.heap]
    have last : state.heap.length +
        ((Items.substitution link body items : Items Labels.wired).size + next.lastPosition) =
          state.heap.length + body.size + (items.size + next.lastPosition) := by
      simp [Items.size, Nat.add_assoc]
    rw [last, ← length]
    refine ⟨read.globals.lastCall, ?_⟩
    rw [read.globals.lastCallSubstitution, read₁.lastCallSubstitution]
    simp
  case unblocked => exact .inr (.inr (.inl (.head _)))

/-- The reading of a substitution that succeeds. -/
theorem parseCommandSubstitution_some {builder' : CommandCallBuilder} {path : CString}
    {position : Nat} {state' : ParserState}
    (substituted : parseCommandSubstitution outcomes builder rest state =
      (some (builder', path, position), state')) :
    ∃ fd kernel call last state₁, substitutionEnd 0 rest = some position ∧
      state.kernel.pipe outcomes = (some fd, kernel) ∧
      parseCommandCall outcomes (joinStrings (rest.take position) [' ']) true false
        (state.substituting kernel fd) = (some call, state₁) ∧
      state₁.lastParsedCommandCallSubstitution = some last ∧
      (state₁.call last).stdout = stdoutFileno ∧
      builder' = { builder with readingPipes := builder.readingPipes ++ [state.openPipes.length] } ∧
      path = devFile fd.1 ∧
      state' =
        { state₁ with
          heap := state₁.heap.modify last (·.writeTo (state.nextLink fd))
          lastParsedCommandCallSubstitution := none
          commandCalls := state₁.commandCalls ++ [call] } := by
  cases ended : substitutionEnd 0 rest with
  | none => simp [parseCommandSubstitution_unclosed ended] at substituted
  | some found =>
      cases created : state.kernel.pipe outcomes with
      | mk result kernel =>
          cases result with
          | none => simp [parseCommandSubstitution_pipe_none ended created] at substituted
          | some fd =>
              rw [parseCommandSubstitution_parsed ended created] at substituted
              cases called : parseCommandCall outcomes (joinStrings (rest.take found) [' ']) true
                  false (state.substituting kernel fd) with
              | mk call state₁ =>
                  cases lastCall : state₁.lastParsedCommandCallSubstitution with
                  | none => simp [called, concludeSubstitution, lastCall] at substituted
                  | some last =>
                      cases call with
                      | none => simp [called, concludeSubstitution, lastCall] at substituted
                      | some call =>
                          by_cases kept : (state₁.call last).stdout = stdoutFileno
                          · simp only [called, concludeSubstitution, lastCall, kept, ne_eq,
                              not_true, if_false, Prod.mk.injEq, Option.some.injEq] at substituted
                            obtain ⟨⟨rfl, rfl, rfl⟩, rfl⟩ := substituted
                            exact ⟨fd, kernel, call, last, state₁, rfl, rfl, called, lastCall, kept,
                              rfl, rfl, rfl⟩
                          · simp [called, concludeSubstitution, lastCall, kept] at substituted

/-- A substitution. -/
theorem substitutionSpecification
    (call : ∀ position fd kernel, substitutionEnd 0 rest = some position →
      state.kernel.pipe outcomes = (some fd, kernel) →
      CallSpecification outcomes (joinStrings (rest.take position) [' ']) true false
        (state.substituting kernel fd)) :
    SubstitutionSpecification outcomes builder rest state := by
  intro builder' path position state' valid noLast clean substituted
  obtain ⟨fd, kernel, ref, last, state₁, ended, created, called, lastCall, kept, rfl, rfl, rfl⟩ :=
    parseCommandSubstitution_some substituted
  have piped : Wires outcomes state (state.substituting kernel fd) [state.nextLink fd] [] [] [] [] :=
    (wires_pipe valid created).ofSame ⟨rfl, rfl, rfl⟩ ⟨rfl, rfl, rfl⟩
  obtain ⟨body, read⟩ := call position fd kernel ended created ref state₁
    ⟨piped.valid, noLast, fun _ => rfl⟩ called
  have tokens : body.words = rest.take position := by
    rw [read.words]
    exact words_joined fun token member => clean token (List.mem_of_mem_take member)
  have place : last = state.heap.length + body.lastPosition := by
    have chosen := read.globals.lastCallSubstitution
    simpa [lastCall, ParserState.substituting] using chosen
  have lastStage : state₁.call last =
      body.lastCall (joinStrings (rest.take position) [' ']) none none := by
    rw [place]
    exact read.call_last
  have placed : body.Placed true false :=
    Pipeline.Placed.narrow _ _ body read.placed read.wires.openedAbove (lastStage ▸ kept)
  refine ⟨state.nextLink fd, body, ?_⟩
  constructor
  case split => rw [tokens]; exact substitutionEnd_split ended
  case placed => exact placed
  case builder => rfl
  case path => rfl
  case wires => exact (piped.trans read.wires).ofSame ⟨rfl, rfl, rfl⟩ ⟨rfl, rfl, rfl⟩
  case heap =>
    rw [read.heap, place, tokens, ParserState.substituting, modify_append_right,
      Pipeline.calls_writeTo _ _ _ body placed]
  case listed =>
    have own := listedCalls_substitution state.heap.length body
    rw [read.listed, read.ref]
    simp only [ParserState.substituting, List.append_assoc]
    rw [own]
  case lastCall => exact read.globals.lastCall
  case lastCallSubstitution => rfl

theorem builtCall_pipe {held : Stream → Option Descriptor} {link : Link}
    {tree : Pipeline Labels.wired} (free : held .stdout = none) :
    (builtCall context builder held before .nil .last).writeTo link =
      builtCall context builder held before .nil (.pipe link tree) := by
  simp [builtCall, CommandCall.writeTo, Next.link, Items.held, Items.lastRedirection, free]

theorem buildCommand_writingTo {link : Link} {argv : List CString} {commandString : CString}
    (above : 2 < link.writeEnd) :
    buildCommand (builder.writingTo link) argv commandString =
      (buildCommand builder argv commandString).writeTo link := by
  have set : link.writeEnd ≠ uninitializedFd := by
    simp only [uninitializedFd]
    omega
  simp only [buildCommand, CommandCallBuilder.writingTo, CommandCall.writeTo, set, ne_eq,
    not_false_eq_true, if_true]
  rfl

/-- The reading of a pipe symbol that succeeds. -/
theorem parseTokens_pipe_some {ref : CallRef} {state' : ParserState}
    (inside : ¬ (rest = [] ∨ before = []))
    (apart : containsString redirectionCaretSymbols (rest.headD []) = false)
    (parsed : parseTokens outcomes context builder before (pipeSymbol :: rest) state =
      (some ref, state')) :
    ∃ pipped state₁ fd kernel, builder.fds.stdout = uninitializedFd ∧
      parseCommandCall outcomes (joinStrings rest [' ']) context.insideSubstitution true state =
        (some pipped, state₁) ∧
      state₁.kernel.pipe outcomes = (some fd, kernel) ∧
      finishCommandCall context (builder.writingTo (state₁.nextLink fd))
        (before ++ List.replicate (rest.length + 1) none)
        ((state₁.linked kernel fd pipped).listPipped context.insideSubstitution pipped) =
          (some ref, state') := by
  rw [parseTokens_pipe inside apart] at parsed
  by_cases free : builder.fds.stdout = uninitializedFd
  case neg => simp [free, abandonCommandCall] at parsed
  cases called : parseCommandCall outcomes (joinStrings rest [' ']) context.insideSubstitution true
      state with
  | mk result state₁ =>
      cases result with
      | none => simp [free, called, abandonCommandCall] at parsed
      | some pipped =>
          cases created : state₁.kernel.pipe outcomes with
          | mk result kernel =>
              cases result with
              | none => simp [free, called, linkPipelines_none created, abandonCommandCall] at parsed
              | some fd =>
                  simp only [free, called, linkPipelines_some created, ne_eq, not_true,
                    if_false] at parsed
                  exact ⟨pipped, state₁, fd, kernel, free, rfl, created, parsed⟩

/-- The pipeline after a pipe symbol, linked to the stage before it. -/
theorem CallRead.wires_linked {commandString : CString} {insideSubstitution insidePipeline : Bool}
    {state₁ : ParserState} {pipped : CallRef} {tree : Pipeline Labels.wired} {kernel : Kernel}
    {fd : Int × Int}
    (read : CallRead outcomes commandString insideSubstitution insidePipeline state state₁ pipped
      tree)
    (created : state₁.kernel.pipe outcomes = (some fd, kernel)) :
    Wires outcomes state (state₁.linked kernel fd pipped) (tree.links ++ [state₁.nextLink fd])
      tree.opens tree.redirections [] tree.files := by
  have piped : Wires outcomes state₁ (state₁.linked kernel fd pipped) [state₁.nextLink fd] [] []
      [] [] :=
    (wires_pipe read.wires.valid created).ofSame ⟨rfl, rfl, rfl⟩ ⟨rfl, rfl, rfl⟩
  simpa only [List.append_nil] using read.wires.trans piped

theorem CallRead.heap_linked {commandString : CString} {insideSubstitution : Bool}
    {state₁ : ParserState} {pipped : CallRef} {tree : Pipeline Labels.wired}
    (read : CallRead outcomes commandString insideSubstitution true state state₁ pipped tree)
    (kernel : Kernel) (fd : Int × Int) :
    (state₁.linked kernel fd pipped).heap =
      state.heap ++ tree.calls commandString (some (state₁.nextLink fd)) none := by
  rw [ParserState.linked, read.heap, read.ref, modify_append_right,
    Pipeline.calls_readFrom _ _ _ read.placed]

/-- A pipe symbol of the token loop: the rest of the string is another pipeline. -/
theorem tokensSpecification_pipe (inside : ¬ (rest = [] ∨ before = []))
    (apart : containsString redirectionCaretSymbols (rest.headD []) = false)
    (call : builder.fds.stdout = uninitializedFd →
      CallSpecification outcomes (joinStrings rest [' ']) context.insideSubstitution true state) :
    TokensSpecification outcomes context builder before (pipeSymbol :: rest) state := by
  intro held ref state' ready holds clean _ parsed
  obtain ⟨pipped, state₁, fd, kernel, free, called, created, finished⟩ :=
    parseTokens_pipe_some inside apart parsed
  obtain ⟨finishes, rfl, rfl⟩ := finishCommandCall_some finished
  obtain ⟨tree, read⟩ := call free _ _ ready called
  have above := read.wires.valid.lt_pipe created
  have unredirected := (holds.free_iff .stdout).mp free
  have tokens : tree.words = rest := by
    rw [read.words]
    exact words_joined fun token member => clean token (.tail _ member)
  have built : buildCommand (builder.writingTo (state₁.nextLink fd))
      ((before ++ List.replicate (rest.length + 1) none).filterMap id)
      (removeExtraPipes 0 (trimSpaces context.commandString)) =
        builtCall context builder held before .nil (.pipe (state₁.nextLink fd) tree) := by
    rw [buildCommand_writingTo above.2, ← builtCall_pipe unredirected, ← buildCommand_of_holds holds]
    simp
  have heap := read.heap_linked kernel fd
  have positive := tree.size_pos
  refine ⟨.nil, .pipe (state₁.nextLink fd) tree, ?_⟩
  constructor
  case words => rw [← tokens]; rfl
  case named => exact fun empty => absurd (.inr empty) inside
  case placed => trivial
  case nextPlaced => exact read.placed
  case stdinFree => exact fun pipeline => (holds.free_iff .stdin).mp (finishes.1 pipeline)
  case stdoutFree => exact fun _ => unredirected
  case wires =>
    have both := read.wires_linked created
    refine Wires.ofSame (both.congr ?_ ?_) ⟨rfl, rfl, rfl⟩ ⟨rfl, rfl, rfl⟩
    · intro descriptor
      simp [Items.files, Next.files]
    · intro descriptor member
      simp only [Items.files, Next.files, List.nil_append, Items.held_nil,
        List.mem_append] at member
      exact member.elim (read.wires.openedAbove descriptor) (holds.above_heldDescriptors descriptor)
  case heap =>
    simp only [ParserState.finished, ParserState.listPipped, heap, built, List.append_assoc]
    rw [← tokens]
    rfl
  case ref =>
    simp only [ParserState.listPipped, heap]
    simp [Items.size, Next.size]
  case listed =>
    have count : tree.size = tree.size - 1 + 1 := (Nat.sub_add_cancel positive).symm
    have total : (Items.nil : Items Labels.wired).size + (Next.pipe (state₁.nextLink fd) tree).size =
        tree.size - 1 + 1 := by
      simp only [Items.size, Next.size, Nat.zero_add]
      exact count
    have last : state.heap.length + ((Items.nil : Items Labels.wired).size +
        (Next.pipe (state₁.nextLink fd) tree).lastPosition) =
          state.heap.length + tree.lastPosition := by
      simp [Items.size, Next.lastPosition]
    rw [total, last, listedCalls_succ, ← List.append_assoc, ← read.listed, ← read.ref]
    have compared : (state₁.lastParsedCommandCall ≠ some pipped ∨
        context.insideSubstitution = true) ↔
          (state.heap.length + tree.lastPosition ≠ pipped ∨ context.insideSubstitution = true) := by
      rw [read.globals.lastCall]
      cases context.insideSubstitution <;> simp
    simp only [ParserState.finished, ParserState.listPipped, ParserState.linked, compared]
  case globals =>
    have last : state.heap.length + ((Items.nil : Items Labels.wired).size +
        (Next.pipe (state₁.nextLink fd) tree).lastPosition) =
          state.heap.length + tree.lastPosition := by
      simp [Items.size, Next.lastPosition]
    have noStart : commandSubstitutionStart ≠ pipeSymbol := by decide
    rw [last]
    constructor
    · simp only [ParserState.finished, ParserState.listPipped, ParserState.linked,
        read.globals.lastCall]
      cases context.insideSubstitution <;> simp
    · simp only [ParserState.finished, ParserState.listPipped, ParserState.linked,
        read.globals.lastCallSubstitution, ← tokens]
      cases context.insideSubstitution <;> simp [noStart]
  case unblocked =>
    have written : fd.2 ≠ uninitializedFd := by
      simp only [uninitializedFd]
      omega
    have checked := finishes.2
    have inner := read.unblocked
    simp only [ParserState.listPipped, ParserState.linked, read.globals.lastCall,
      read.globals.lastCallSubstitution] at checked
    cases substitution : context.insideSubstitution with
    | true => exact .inl rfl
    | false =>
        simp only [Unblocked, substitution, Bool.false_eq_true, false_or, if_false,
          tokens] at checked inner ⊢
        by_cases start : commandSubstitutionStart ∈ rest
        · exact .inr (.inl (.tail _ start))
        · cases pipeline : context.insidePipeline with
          | true =>
              simp only [start, if_false] at checked
              rcases checked pipeline with impossible | cleared | unset
              · cases impossible
              · exact .inl cleared
              · exact absurd unset written
          | false =>
              rcases inner with cleared | member | short
              · exact .inl cleared
              · exact absurd member start
              · right; right
                simpa [Next.pipes] using short

/-- A whole string. -/
theorem callSpecification {commandString : CString} {insideSubstitution insidePipeline : Bool}
    (nonblank : words commandSeparator commandString ≠ [])
    (tokens : TokensSpecification outcomes { commandString, insideSubstitution, insidePipeline }
      newCommandCallBuilder [] (words commandSeparator commandString) state) :
    CallSpecification outcomes commandString insideSubstitution insidePipeline state := by
  intro ref state' ready parsed
  rw [parseCommandCall_words nonblank] at parsed
  obtain ⟨items, next, read⟩ := tokens (fun _ => none) ref state' ready (holds_new _)
    (words_clean rfl commandString) (fun both => nonblank both.2) parsed
  obtain ⟨name, others, rfl⟩ := read.named rfl
  have built : builtCall { commandString, insideSubstitution, insidePipeline }
      newCommandCallBuilder (fun _ => none) [] (.word name others) next =
        stageCall name others commandString none (next.link.or none) := by
    simp [builtCall, stageCall, Items.arguments, Items.readLinks, Items.held,
      Items.lastRedirection, newCommandCallBuilder]
  refine ⟨.mk name others next, ?_⟩
  constructor
  case words => rw [read.words]; rfl
  case placed => exact ⟨read.placed, read.nextPlaced⟩
  case wires =>
    have same : (Items.word name others : Items Labels.wired).held (fun _ => none) =
        others.lastRedirection := by
      funext stream
      simp [Items.held, Items.lastRedirection]
    have wires := read.wires
    rw [same] at wires
    exact wires
  case heap =>
    rw [read.heap, built]
    rfl
  case ref => exact read.ref
  case listed => exact read.listed
  case globals =>
    have globals := read.globals
    rw [read.words] at globals
    exact globals
  case unblocked =>
    have unblocked := read.unblocked
    rw [read.words] at unblocked
    exact unblocked

end Steps

/-- All three functions meet their specifications. -/
theorem specifications (outcomes : FileOutcomes) :
    (∀ commandString insideSubstitution insidePipeline state,
      CallSpecification outcomes commandString insideSubstitution insidePipeline state) ∧
    (∀ context builder before rest state,
      TokensSpecification outcomes context builder before rest state) ∧
    (∀ builder rest state, SubstitutionSpecification outcomes builder rest state) := by
  apply parser_induction
  case blank =>
    intro commandString insideSubstitution insidePipeline state blank ref state' _ parsed
    rw [parseCommandCall_blank blank] at parsed
    cases parsed
  case string =>
    intro commandString insideSubstitution insidePipeline state nonblank ih
    exact callSpecification nonblank ih
  case nil =>
    intro context builder before state
    exact tokensSpecification_nil
  case word =>
    intro context builder before token rest state ordinary ih
    exact tokensSpecification_word ordinary ih
  case misplaced =>
    intro context builder before token rest state symbol outside held ref state' _ _ _ _ parsed
    rw [parseTokens_misplaced symbol outside] at parsed
    cases parsed
  case adjacent =>
    intro context builder before token rest state symbol inside adjacent held ref state' _ _ _ _
      parsed
    rw [parseTokens_adjacent symbol inside adjacent] at parsed
    cases parsed
  case start =>
    intro context builder before rest state inside apart body ih
    cases substituted : parseCommandSubstitution outcomes builder rest state with
    | mk result state₁ =>
        cases result with
        | none =>
            intro held ref state' _ _ _ _ parsed
            rw [parseTokens_substitution inside apart, substituted] at parsed
            cases parsed
        | some result =>
            exact tokensSpecification_substitution inside apart substituted body
              (ih _ _ _ _ substituted)
  case pipe =>
    intro context builder before rest state inside apart ih
    exact tokensSpecification_pipe inside apart ih
  case stray =>
    intro context builder before rest state inside apart held ref state' _ _ _ _ parsed
    rw [parseTokens_redirection (by decide) inside apart (by decide) (by decide),
      parseRedirections_end] at parsed
    cases parsed
  case redirection =>
    intro context builder before symbol rest state inside apart ih
    cases redirected : parseRedirections outcomes builder.fds symbol.text (rest.headD []) state with
    | mk result state₁ =>
        cases result with
        | none =>
            intro held ref state' _ _ _ _ parsed
            rw [parseTokens_redirection_text inside apart, redirected] at parsed
            cases parsed
        | some fds =>
            exact tokensSpecification_redirection inside apart redirected (ih fds state₁ redirected)
  case body =>
    intro builder rest state ih
    exact substitutionSpecification ih

/-- What a successful `parse_command_call` has read. -/
theorem parseCommandCall_read {outcomes : FileOutcomes} {commandString : CString}
    {insideSubstitution insidePipeline : Bool} {state state' : ParserState} {ref : CallRef}
    (ready : Ready insideSubstitution state)
    (parsed : parseCommandCall outcomes commandString insideSubstitution insidePipeline state =
      (some ref, state')) :
    ∃ tree, CallRead outcomes commandString insideSubstitution insidePipeline state state' ref
      tree :=
  (specifications outcomes).1 commandString insideSubstitution insidePipeline state ref state' ready
    parsed

end Jsh
