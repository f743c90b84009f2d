import Jsh.LineCommands
import Jsh.WiredStages

/-!
# Streams of a child

What the standard descriptors of a child refer to at its `execvp`, for every child that
is launched while a line is executed: the file of the last redirection of its stage, else
the pipe to the neighbouring stage, else what they refer to in the shell.
-/

set_option autoImplicit false

namespace Jsh

open Library

/-! ## Open files -/

/-- The open file a descriptor number refers to. -/
def fileOf (descriptors : List Descriptor) (number : Int) : Option OpenFile :=
  (descriptors.find? (·.number == number)).map (·.file)

theorem fileOf_cons (descriptor : Descriptor) (descriptors : List Descriptor) (number : Int) :
    fileOf (descriptor :: descriptors) number =
      if descriptor.number = number then some descriptor.file else fileOf descriptors number := by
  by_cases same : descriptor.number = number <;> simp [fileOf, same]

theorem fileOf_close (kernel : Kernel) (fd number : Int) :
    fileOf (kernel.close fd).descriptors number =
      if number = fd then none else fileOf kernel.descriptors number := by
  unfold Kernel.close
  induction kernel.descriptors with
  | nil => simp [fileOf]
  | cons descriptor descriptors ih =>
      by_cases closed : descriptor.number = fd
      · rw [List.filter_cons_of_neg (by simpa using closed), ih, fileOf_cons]
        grind
      · rw [List.filter_cons_of_pos (by simpa using closed), fileOf_cons, ih, fileOf_cons]
        grind

theorem fileOf_dup2 {kernel : Kernel} {oldfd newfd : Int} {file : OpenFile}
    (opened : fileOf kernel.descriptors oldfd = some file) (number : Int) :
    fileOf (kernel.dup2 oldfd newfd).descriptors number =
      if number = newfd then some file else fileOf kernel.descriptors number := by
  obtain ⟨descriptor, found, rfl⟩ := Option.map_eq_some_iff.mp opened
  unfold Kernel.dup2
  rw [found]
  dsimp only
  by_cases same : oldfd = newfd
  · rw [if_pos same]
    grind
  · rw [if_neg same, fileOf_cons, fileOf_close]
    grind

theorem fileOf_of_mem {descriptors : List Descriptor}
    (distinct : (descriptors.map (·.number)).Nodup) {descriptor : Descriptor}
    (member : descriptor ∈ descriptors) :
    fileOf descriptors descriptor.number = some descriptor.file := by
  induction descriptors with
  | nil => cases member
  | cons first descriptors ih =>
      rw [List.map_cons, List.nodup_cons] at distinct
      rw [fileOf_cons]
      cases List.mem_cons.mp member with
      | inl same => rw [same, if_pos rfl]
      | inr later =>
          have apart : first.number ≠ descriptor.number := fun same =>
            distinct.1 (same ▸ List.mem_map_of_mem later)
          rw [if_neg apart, ih distinct.2 later]

theorem fileOf_foldl_spared {spared : Nat → Bool} {fd : Int × Int → Int} {number : Int}
    (entries : List ((Int × Int) × Nat)) : ∀ {kernel : Kernel},
    (∀ entry ∈ entries, fd entry.1 = number → spared entry.2 = true) →
    fileOf (entries.foldl (fun kernel (pipe, index) =>
        if spared index then kernel else kernel.close (fd pipe)) kernel).descriptors number =
      fileOf kernel.descriptors number := by
  induction entries with
  | nil => exact fun _ => rfl
  | cons entry entries ih =>
      intro kernel spares
      obtain ⟨pipe, index⟩ := entry
      rw [List.foldl_cons, ih fun other member => spares other (.tail _ member)]
      dsimp only
      cases kept : spared index with
      | true => simp
      | false =>
          have apart : number ≠ fd pipe := by
            intro same
            have := spares (pipe, index) (.head _) same.symm
            rw [kept] at this
            cases this
          rw [if_neg Bool.false_ne_true, fileOf_close, if_neg apart]

/-! ## The descriptors of a child -/

/-- The number of a standard stream. -/
def Stream.fileno : Stream → Int
  | .stdin => stdinFileno
  | .stdout => stdoutFileno
  | .stderr => stderrFileno

/-- The descriptor a call has for a stream. -/
def CommandCall.fd (call : CommandCall) : Stream → Int
  | .stdin => call.stdin
  | .stdout => call.stdout
  | .stderr => call.stderr

/-- Each stream is that of the shell or has a descriptor above the standard ones. -/
def CommandCall.Apart (call : CommandCall) : Prop :=
  ∀ stream, call.fd stream = stream.fileno ∨ 2 < call.fd stream

section Child

variable {command : Command} {call : CommandCall} {fd fd2 : Int × Int} {kernel : Kernel}

/-- The descriptors a child keeps, before its streams are moved to the standard ones. -/
def keptKernel (command : Command) (call : CommandCall) (fd fd2 : Int × Int) (kernel : Kernel) :
    Kernel :=
  closeWritingPipes command call (closeReadingPipes command call
    ((((kernel.close fd.2).close fd2.1).close fd.1).close fd2.2))

theorem fileOf_keptKernel {pid : Int} {descriptors : List Descriptor} {number : Int}
    (fresh : number ∉ [fd.1, fd.2, fd2.1, fd2.2])
    (keeps : Child.Keeps { pid, command, call, descriptors } number) :
    fileOf (keptKernel command call fd fd2 kernel).descriptors number =
      fileOf kernel.descriptors number := by
  simp only [List.mem_cons, List.not_mem_nil, or_false, not_or] at fresh
  obtain ⟨first, second, third, fourth⟩ := fresh
  have writing : ∀ entry ∈ command.openPipes.zipIdx, entry.1.2 = number →
      call.writingPipes.contains entry.2 = true := by
    rintro ⟨pipe, index⟩ member same
    exact List.contains_iff_mem.mpr
      (keeps.writing index pipe (List.mem_zipIdx_iff_getElem?.mp member) same)
  have reading : ∀ entry ∈ command.openPipes.zipIdx, entry.1.1 = number →
      call.readingPipes.contains entry.2 = true := by
    rintro ⟨pipe, index⟩ member same
    exact List.contains_iff_mem.mpr
      (keeps.reading index pipe (List.mem_zipIdx_iff_getElem?.mp member) same)
  rw [keptKernel, closeWritingPipes, fileOf_foldl_spared _ writing, closeReadingPipes,
    fileOf_foldl_spared _ reading]
  simp only [fileOf_close, first, second, third, fourth, if_false]

/-- The three `dup2` of a child. -/
theorem fileOf_childKernel {files : Stream → OpenFile} (apart : call.Apart)
    (opened : ∀ stream,
      fileOf (keptKernel command call fd fd2 kernel).descriptors (call.fd stream) =
        some (files stream)) (number : Int) :
    fileOf (childKernel command call fd fd2 kernel).descriptors number =
      if number = stderrFileno then some (files .stderr)
      else if number = stdoutFileno then some (files .stdout)
      else if number = stdinFileno then some (files .stdin)
      else fileOf (keptKernel command call fd fd2 kernel).descriptors number := by
  have input : ∀ number, fileOf
      ((keptKernel command call fd fd2 kernel).dup2 call.stdin stdinFileno).descriptors number =
        if number = stdinFileno then some (files .stdin)
        else fileOf (keptKernel command call fd fd2 kernel).descriptors number :=
    fileOf_dup2 (opened .stdin)
  have out : call.stdout = 1 ∨ 2 < call.stdout := apart .stdout
  have error : call.stderr = 2 ∨ 2 < call.stderr := apart .stderr
  have output : ∀ number, fileOf (((keptKernel command call fd fd2 kernel).dup2 call.stdin
      stdinFileno).dup2 call.stdout stdoutFileno).descriptors number =
        if number = stdoutFileno then some (files .stdout)
        else if number = stdinFileno then some (files .stdin)
        else fileOf (keptKernel command call fd fd2 kernel).descriptors number := by
    intro number
    have present := input call.stdout
    rw [if_neg (by unfold stdinFileno; omega)] at present
    rw [fileOf_dup2 (present.trans (opened .stdout)), input]
  have present := output call.stderr
  rw [if_neg (by unfold stdoutFileno; omega), if_neg (by unfold stdinFileno; omega)] at present
  have last := @fileOf_dup2 _ _ stderrFileno _ (present.trans (opened .stderr)) number
  rw [output] at last
  exact last

end Child

/-! ## Steps of the shell -/

/-- The table is valid, and the descriptors of `base` are open. -/
structure Based (base : Descriptor → Prop) (kernel : Kernel) : Prop where
  valid : kernel.Valid
  opened : ∀ descriptor, base descriptor → descriptor ∈ kernel.descriptors

/-- The child has been forked for a call of the command while the descriptors of `base`
were open in the shell. -/
structure Child.Forked (command : Command) (base : Descriptor → Prop) (child : Child) : Prop where
  call : child.call ∈ command.commandCalls
  named : child.command = command
  descriptors : ∃ fd fd2 kernel, Based base kernel ∧
    (∀ descriptor, base descriptor → descriptor.number ∉ [fd.1, fd.2, fd2.1, fd2.2]) ∧
    child.descriptors = (childKernel command child.call fd fd2 kernel).descriptors

def Event.Forked (command : Command) (base : Descriptor → Prop) : Event → Prop
  | .child launched => launched.Forked command base
  | _ => True

theorem Event.Childless.forked {command : Command} {base : Descriptor → Prop} {event : Event}
    (childless : event.Childless) : event.Forked command base := by
  cases event with
  | child launched => exact childless.elim
  | _ => trivial

/-- The descriptors of `base` stay open, and every child is forked while they are. -/
def Receiving (command : Command) (base : Descriptor → Prop) (start finish : Shell) : Prop :=
  Based base start.parser.kernel →
    Based base finish.parser.kernel ∧
      Recorded (Event.Forked command base) start.control.trace finish.control.trace

section Receiving

variable {environment : Environment} {command : Command} {base : Descriptor → Prop}

instance : Std.Refl (Receiving command base) where
  refl _ based := ⟨based, refl_of (Recorded _) _⟩

instance : IsTrans Shell (Receiving command base) where
  trans _ _ _ before after based := by
    obtain ⟨based', recorded⟩ := before based
    obtain ⟨based'', recorded'⟩ := after based'
    exact ⟨based'', trans_of (Recorded _) recorded recorded'⟩

theorem Receiving.of_same {start finish : Shell} (same : finish.parser = start.parser)
    (recorded : Recorded Event.Childless start.control.trace finish.control.trace) :
    Receiving command base start finish :=
  fun based => ⟨same ▸ based, recorded.mono fun _ => Event.Childless.forked⟩

/-- Closing numbers that `base` does not have. -/
theorem Sheds.receiving {numbers : List Int} {start finish : Shell}
    (sheds : Sheds numbers start finish) (above : ∀ number ∈ numbers, 2 < number)
    (apart : ∀ descriptor, base descriptor → descriptor.number ∉ numbers) :
    Receiving command base start finish := by
  intro based
  refine ⟨⟨sheds.valid above based.valid, fun descriptor inside => ?_⟩, ?_⟩
  · exact sheds.rest descriptor (based.opened descriptor inside) (apart descriptor inside)
  · exact sheds.recorded.mono fun _ => Event.Childless.forked

theorem forkCall_receives {call : CommandCall} {job : Job} {fd fd2 : Int × Int} {start : Shell}
    (listed : call ∈ command.commandCalls)
    (above : ∀ number ∈ [fd.1, fd.2, fd2.1, fd2.2], 2 < number)
    (apart : ∀ descriptor, base descriptor → descriptor.number ∉ [fd.1, fd.2, fd2.1, fd2.2]) :
    Ends (Receiving command base start) start (forkCall environment command call job fd fd2) := by
  have calls : Sheds [] start start.called :=
    Sheds.of_silent (outcome_silent environment.fork) start
  have forked : Receiving command base start start.called :=
    calls.receiving (by simp) (by simp)
  rw [forkCall]
  refine Ends.seq forked fun result state ran => ?_
  cases ran
  cases environment.fork start.control.calls with
  | none => exact Moves.pure _ _
  | some pid =>
      refine Ends.seq (Moves.get _) fun shell state got => ?_
      cases got
      refine Ends.seq ?_ fun _ state recorded => ?_
      · exact fun based => ⟨based, .single _ ⟨listed, rfl, fd, fd2, _, based, apart, rfl⟩⟩
      · cases recorded
        exact (forkCall_sheds _ _ fd fd2 _).receiving above apart

/-- `pipe` takes numbers that are not in use. -/
theorem Based.pipe {outcomes : FileOutcomes} {kernel kernel' : Kernel}
    {result : Option (Int × Int)} (based : Based base kernel)
    (called : kernel.pipe outcomes = (result, kernel')) :
    Based base kernel' ∧ ∀ fd, result = some fd → (2 < fd.1 ∧ 2 < fd.2) ∧
      ∀ descriptor, base descriptor → descriptor.number ≠ fd.1 ∧ descriptor.number ≠ fd.2 := by
  have valid := based.valid.pipe called
  cases result with
  | none =>
      obtain ⟨_, rfl⟩ := Kernel.pipe_none called
      exact ⟨⟨valid, based.opened⟩, fun _ impossible => by cases impossible⟩
  | some fd =>
      have above := based.valid.lt_pipe called
      obtain ⟨_, readEnd, writeEnd, rfl⟩ := Kernel.pipe_some called
      refine ⟨⟨valid, fun descriptor inside => .tail _ (.tail _ (based.opened _ inside))⟩, ?_⟩
      rintro _ ⟨⟩
      refine ⟨above, fun descriptor inside => ?_⟩
      have open' := Kernel.mem_numbers.mpr ⟨descriptor, based.opened _ inside, rfl⟩
      constructor
      · intro same
        exact lowestFree_not_mem kernel.numbers (readEnd ▸ same ▸ open')
      · intro same
        exact lowestFree_not_mem (fd.1 :: kernel.numbers) (writeEnd ▸ same ▸ .tail _ open')

theorem pipe_receives {start : Shell} (based : Based base start.parser.kernel) :
    ∃ result finish, pipe environment start = .ok result finish ∧
      Receiving command base start finish ∧ Based base finish.parser.kernel ∧
      ∀ fd, result = some fd → (2 < fd.1 ∧ 2 < fd.2) ∧
        ∀ descriptor, base descriptor →
          descriptor.number ≠ fd.1 ∧ descriptor.number ≠ fd.2 := by
  obtain ⟨based', fresh⟩ := based.pipe rfl
  exact ⟨_, _, rfl, fun _ => ⟨based', refl_of (Recorded _) _⟩, based', fresh⟩

theorem Receiving.steps (environment : Environment) :
    ShellSteps environment (Receiving command base) where
  jobs := by
    refine (@Course.steps (fun _ => False) environment).mono ?_
    rintro _ _ course shell rfl
    exact .of_same rfl (course.recorded.mono fun _ => Event.OfJobs.childless)
  moved _ _ _ := .of_same rfl (refl_of (Recorded _) _)

theorem executeInternalCommand_receives (call : CommandCall) :
    Moves (Receiving command base) (executeInternalCommand environment call) := by
  apply (Receiving.steps environment).executeInternalCommand
  · exact fun shell => .of_same rfl (.single _ trivial)
  · exact fun shell value => .of_same rfl (.single _ trivial)

theorem executeSingleCommand_receives {call : CommandCall} (listed : call ∈ command.commandCalls)
    (job : Job) :
    Moves (Receiving command base) (executeSingleCommand environment command call job) := by
  intro start
  unfold executeSingleCommand
  split
  · exact ((executeInternalCommand_receives call).bind fun _ => .pure _) start
  · have calling : Receiving command base start (start.calling call) :=
      .of_same rfl (.single _ trivial)
    refine Ends.step rfl calling ?_
    by_cases based : Based base (start.calling call).parser.kernel
    · obtain ⟨first, piped₁, ran₁, moved₁, based₁, fresh₁⟩ :=
        @pipe_receives environment command _ _ based
      refine Ends.step ran₁ moved₁ ?_
      cases first with
      | none => exact Moves.pure _ _
      | some fd =>
          obtain ⟨second, piped₂, ran₂, moved₂, _, fresh₂⟩ :=
            @pipe_receives environment command _ _ based₁
          refine Ends.step ran₂ moved₂ ?_
          cases second with
          | none => exact Moves.pure _ _
          | some fd2 =>
              obtain ⟨above₁, apart₁⟩ := fresh₁ fd rfl
              obtain ⟨above₂, apart₂⟩ := fresh₂ fd2 rfl
              apply forkCall_receives listed
              · simp [above₁, above₂]
              · intro descriptor inside
                simp [apart₁ descriptor inside, apart₂ descriptor inside]
    · exact fun based' => absurd based' based

theorem executeCalls_receives (calls : List CommandCall) (listed : calls ⊆ command.commandCalls) :
    ∀ (index : Nat) (info : Option InternalExitInfo) (job : Job),
      Moves (Receiving command base)
        (executeCalls environment command index info job calls) := by
  induction calls with
  | nil => exact fun _ _ _ => .pure _
  | cons call rest ih =>
      intro index info job
      obtain ⟨first, others⟩ := List.cons_subset.mp listed
      refine (executeSingleCommand_receives first job).bind fun result => ?_
      obtain ⟨launched, job'⟩ := result
      cases launched with
      | none =>
          have killed : Moves (Receiving command base)
              (liftJob (kill environment (-job'.pgid) sigkill)) := fun start =>
            have sheds : Sheds [] start _ :=
              Sheds.of_silent (kill_silent environment (-job'.pgid) sigkill) start
            sheds.receiving (by simp) (by simp)
          dsimp only
          split
          · exact killed.bind fun _ => .pure _
          · exact .pure _
      | some launched => exact ih others _ _ _

end Receiving

/-! ## Executing a command -/

section Executing

variable {environment : Environment} {command : Command} {base : Descriptor → Prop}
  {start : Shell}

/-- The children that are recorded have been forked while `base` was open. -/
def Forks (command : Command) (base : Descriptor → Prop) (start finish : Shell) : Prop :=
  Recorded (Event.Forked command base) start.control.trace finish.control.trace

theorem runCommand_forks (based : Based base start.parser.kernel) :
    Ends (Forks command base start) start (runCommand environment command) ∧
      ∀ result finish, runCommand environment command start = .ok result finish →
        (∀ number ∈ pipeNumbers command.openPipes, 2 < number) →
        (∀ descriptor, base descriptor → descriptor.number ∉ pipeNumbers command.openPipes) →
        Based base finish.parser.kernel := by
  rcases runCommand_eq environment command with ⟨call, _, _, same⟩ | ⟨_, same⟩
  · rw [same]
    have moves : Moves (Receiving command base) (do
        let exitCode ← executeInternalCommand environment call
        return newCommandResult exitCode) :=
      (executeInternalCommand_receives call).bind fun _ => .pure _
    refine ⟨(moves start based).2, fun result finish ran _ _ => ?_⟩
    exact ((moves start).of_ok ran based).1
  · rw [same]
    have launches : Moves (Receiving command base)
        (executeAsJob environment command (setupJob command)) :=
      executeCalls_receives command.commandCalls (List.Subset.refl _) 0 none (setupJob command)
    rcases executeExternalCommand_sheds environment command start with
      ⟨halt, finish, launch, ran⟩ | ⟨result, launched, launch, sheds⟩
    · rw [Ends, ran]
      refine ⟨((launches start).of_error launch based).2, fun _ _ other => ?_⟩
      cases other
    · obtain ⟨based', recorded⟩ := (launches start).of_ok launch based
      refine ⟨trans_of (Recorded _) recorded
        (sheds.recorded.mono fun _ => Event.Childless.forked), ?_⟩
      intro result finish ran above apart
      have receives : Receiving command base launched finish :=
        (sheds.of_ok ran).receiving above apart
      exact (receives based').1

theorem executeCommand_forks (based : Based base start.parser.kernel) :
    Ends (Forks command base start) start (executeCommand environment command) := by
  have runs := (@runCommand_forks environment command base start based).1
  refine Ends.bind (fun _ _ ran => runs.of_error ran) fun result state ran => ?_
  have told : Recorded (Event.Forked command base) state.control.trace
      (state.control.trace ++ [.result result.exitCode]) := .single _ trivial
  exact trans_of (Recorded _) (runs.of_ok ran) told

/-- A command leaves open what it does not claim. -/
theorem executeCommand_based (based : Based base start.parser.kernel) (sound : command.Sound)
    (free : ∀ descriptor, base descriptor → ¬ command.Claims descriptor.number)
    {result : CommandResult} {finish : Shell}
    (ran : executeCommand environment command start = .ok result finish) :
    Based base finish.parser.kernel := by
  obtain ⟨result', state, runs, ran⟩ := bind_eq_ok.mp ran
  have based' := (runCommand_forks based).2 result' state runs sound.above
    fun descriptor inside pipe => free descriptor inside (.inl pipe)
  cases ran
  refine ⟨based'.valid.closeUnusedFileDescriptors _ _, fun descriptor inside => ?_⟩
  refine mem_closeUnusedFileDescriptors.mpr ⟨based'.opened descriptor inside, ?_⟩
  exact fun listed => free descriptor inside (.inr ⟨listed.2.1, listed.1⟩)

theorem LaunchedBy.forked {child : Child} (launched : LaunchedBy environment command start child)
    (based : Based base start.parser.kernel) : child.Forked command base := by
  obtain ⟨events, same, member⟩ := launched
  obtain ⟨events', same', forks⟩ := executeCommand_forks based
  have equal : events = events' := List.append_cancel_left (same.symm.trans same')
  exact forks _ (equal ▸ member)

end Executing

/-! ## The commands of a line -/

/-- The standard descriptors and what some of the commands claim, as at the end of the
parse. -/
def Needed (parsed : Kernel) (commands : List Command) (descriptor : Descriptor) : Prop :=
  descriptor ∈ parsed.descriptors ∧
    (descriptor.number ≤ 2 ∨ ∃ command ∈ commands, command.Claims descriptor.number)

theorem Command.Sound.claims_above {command : Command} (sound : command.Sound) {number : Int}
    (claims : command.Claims number) : 2 < number :=
  claims.elim (sound.above number) And.left

theorem Disjoint.step {environment : Environment} {parsed : Kernel} {command : Command}
    {later : List Command} {start finish : Shell} {event : Event} {result : CommandResult}
    (disjoint : Disjoint (command :: later))
    (based : Based (Needed parsed (command :: later)) start.parser.kernel)
    (ran : executeCommand environment command (start.recording event) = .ok result finish) :
    Disjoint later ∧ Based (Needed parsed later) finish.parser.kernel := by
  obtain ⟨apart, rest⟩ := List.pairwise_cons.mp disjoint.apart
  refine ⟨⟨fun other member => disjoint.sound other (.tail _ member), rest⟩, ?_⟩
  have sound := disjoint.sound command (.head _)
  have fewer : Based (Needed parsed later) (start.recording event).parser.kernel := by
    refine ⟨based.valid, fun descriptor ⟨member, reason⟩ => based.opened descriptor ⟨member, ?_⟩⟩
    exact reason.imp_right fun ⟨other, inside, claims⟩ => ⟨other, .tail _ inside, claims⟩
  refine executeCommand_based fewer sound ?_ ran
  rintro descriptor ⟨_, small | ⟨other, inside, claims⟩⟩ own
  · have above := sound.claims_above own
    omega
  · exact apart other inside _ own claims

/-- The execution of some commands comes to the one at `index` in this state. -/
inductive Comes (environment : Environment) :
    List (Option Command) → Shell → Nat → Command → Shell → Prop where
  | now {command : Command} {later : List (Option Command)} {start : Shell} :
      Comes environment (some command :: later) start 0 command
        (start.recording (.command command later))
  | later {first command : Command} {later : List (Option Command)} {start middle state : Shell}
      {result : CommandResult} {index : Nat} :
      executeCommand environment first (start.recording (.command first later)) =
        .ok result middle →
      Comes environment later middle index command state →
      Comes environment (some first :: later) start (index + 1) command state

theorem Launches.comes {environment : Environment} {child : Child}
    {entries : List (Option Command)} {start : Shell} {index : Nat}
    (launches : Launches environment entries start index child) :
    ∃ command state, Comes environment entries start index command state ∧
      LaunchedBy environment command state child := by
  induction launches with
  | now launched => exact ⟨_, _, .now, launched⟩
  | later ran _ ih =>
      obtain ⟨command, state, comes, launched⟩ := ih
      exact ⟨command, state, .later ran comes, launched⟩

/-- A command is executed while everything it claims is as at the end of the parse. -/
theorem Comes.based {environment : Environment} {parsed : Kernel} {command : Command}
    {entries : List (Option Command)} {start state : Shell} {index : Nat}
    (comes : Comes environment entries start index command state) :
    ∀ {commands : List Command}, entries = commands.map some → Disjoint commands →
      Based (Needed parsed commands) start.parser.kernel →
      commands[index]? = some command ∧ Based (Needed parsed [command]) state.parser.kernel := by
  induction comes with
  | now =>
      rintro (_ | ⟨command, later⟩) same disjoint based
      · cases same
      · cases same
        refine ⟨rfl, based.valid, fun descriptor needed => ?_⟩
        refine based.opened descriptor ⟨needed.1, needed.2.imp_right ?_⟩
        rintro ⟨other, inside, claims⟩
        cases List.mem_singleton.mp inside
        exact ⟨_, .head _, claims⟩
  | later ran _ ih =>
      rintro (_ | ⟨command, later⟩) same disjoint based
      · cases same
      · cases same
        obtain ⟨disjoint', based'⟩ := disjoint.step based ran
        exact ih rfl disjoint' based'

/-! ## The streams of a stage -/

def Link.reading (link : Link) : Descriptor := ⟨link.readEnd, .pipeRead link.serial⟩

def Link.writing (link : Link) : Descriptor := ⟨link.writeEnd, .pipeWrite link.serial⟩

/-- The end of the pipe that links a stream of a stage to a neighbour. -/
def WiredStage.linked (stage : WiredStage) : Stream → Option Descriptor
  | .stdin => stage.input.map Link.reading
  | .stdout => stage.output.map Link.writing
  | .stderr => none

/-- The descriptor opened for a stream: that of its last redirection, else the end of the
pipe to the neighbour. -/
def WiredStage.descriptor (stage : WiredStage) (stream : Stream) : Option Descriptor :=
  (stage.items.lastRedirection stream).or (stage.linked stream)

/-- What a stream of a stage is to refer to, `own` being what it refers to in the shell. -/
def WiredStage.file (own : Stream → Option OpenFile) (stage : WiredStage) (stream : Stream) :
    Option OpenFile :=
  ((stage.descriptor stream).map (·.file)).or (own stream)

theorem WiredStage.call_fd (stage : WiredStage) (stream : Stream) :
    stage.call.fd stream = ((stage.descriptor stream).map (·.number)).getD stream.fileno := by
  cases stream with
  | stdin =>
      simp only [call, CommandCall.fd, stageCall, descriptor, linked, Stream.fileno]
      cases stage.items.lastRedirection .stdin <;> cases stage.input <;> rfl
  | stdout =>
      simp only [call, CommandCall.fd, stageCall, descriptor, linked, Stream.fileno]
      cases stage.items.lastRedirection .stdout <;> cases stage.output <;> rfl
  | stderr =>
      simp only [call, CommandCall.fd, stageCall, descriptor, linked, Stream.fileno]
      cases stage.items.lastRedirection .stderr <;> rfl

section Read

variable {outcomes : FileOutcomes} {segment : CString} {state state' : ParserState}
  {command : Command} {tree : Pipeline Labels.wired} {stage : WiredStage}

theorem CommandRead.within (read : CommandRead outcomes segment state state' command tree)
    (member : stage ∈ tree.wiredStages segment none none) :
    stage.Within tree.words tree.links tree.requests tree.files ∧
      stage.call ∈ command.commandCalls := by
  have within := tree.wiredStages_within segment none none stage member
  simp only [Option.toList_none, List.nil_append, List.append_nil] at within
  refine ⟨within, read.perm.mem_iff.mpr ?_⟩
  rw [← tree.map_call_wiredStages]
  exact List.mem_map_of_mem member

theorem CommandRead.openPipes_index (read : CommandRead outcomes segment state state' command tree)
    {link : Link} (member : link ∈ tree.links) :
    command.openPipes[link.index]? = some link.ends := by
  obtain ⟨position, bound, rfl⟩ := List.getElem_of_mem member
  have indices := congrArg (·[position]?) read.wires.indices
  have entering : state.entering.openPipes.length = 0 := rfl
  simp only [entering, List.getElem?_map, List.getElem?_eq_getElem bound, Option.map_some,
    List.getElem?_range' bound, Nat.zero_add, Nat.one_mul, Option.some.injEq] at indices
  rw [read.openPipes, List.getElem?_map, indices, List.getElem?_eq_getElem bound]
  rfl

theorem CommandRead.file_of_files (read : CommandRead outcomes segment state state' command tree)
    {descriptor : Descriptor} (member : descriptor ∈ tree.files) :
    ∃ serial, descriptor.file = .file serial := by
  have kind := List.mem_map_of_mem (f := Descriptor.file) (tree.files_subset member)
  rw [read.wires.files] at kind
  obtain ⟨serial, _, same⟩ := List.mem_map.mp kind
  exact ⟨serial, same.symm⟩

theorem mem_link_reading {link : Link} {links : List Link} (member : link ∈ links) :
    link.reading ∈ links.flatMap Link.descriptors :=
  List.mem_flatMap.mpr ⟨link, member, .tail _ (.head _)⟩

theorem mem_link_writing {link : Link} {links : List Link} (member : link ∈ links) :
    link.writing ∈ links.flatMap Link.descriptors :=
  List.mem_flatMap.mpr ⟨link, member, .head _⟩

/-- What the parse has opened for a stream is a file, or the end of a pipe of the stage. -/
inductive WiredStage.Has (stage : WiredStage) (links : List Link) (files : List Descriptor) :
    Descriptor → Prop
  | file {descriptor : Descriptor} : descriptor ∈ files → Has stage links files descriptor
  | reading {link : Link} : link ∈ links → link.index ∈ stage.call.readingPipes →
      Has stage links files link.reading
  | writing {link : Link} : link ∈ links → link.index ∈ stage.call.writingPipes →
      Has stage links files link.writing

theorem WiredStage.Within.has {words : List CString} {links : List Link}
    {requests : List (Descriptor × CString × OpenMode)} {files : List Descriptor}
    (within : stage.Within words links requests files) {stream : Stream} {descriptor : Descriptor}
    (found : stage.descriptor stream = some descriptor) : stage.Has links files descriptor := by
  rcases Option.or_eq_some_iff.mp found with redirected | ⟨_, linked⟩
  · exact .file (within.files (Items.lastRedirection_redirected redirected))
  · cases stream with
    | stdin =>
        obtain ⟨link, input, rfl⟩ := Option.map_eq_some_iff.mp linked
        refine .reading (within.input link input) ?_
        simp [WiredStage.call, input]
    | stdout =>
        obtain ⟨link, output, rfl⟩ := Option.map_eq_some_iff.mp linked
        refine .writing (within.output link output) ?_
        simp [WiredStage.call, output]
    | stderr => cases linked

theorem WiredStage.call_readingPipes (stage : WiredStage) :
    stage.call.readingPipes = stage.sources.map (·.index) := by
  rw [WiredStage.call, stageCall_readingPipes, ← linkIndices_append]
  rfl

theorem WiredStage.Within.has_source {words : List CString} {links : List Link}
    {requests : List (Descriptor × CString × OpenMode)} {files : List Descriptor}
    (within : stage.Within words links requests files) {link : Link}
    (member : link ∈ stage.sources) : link ∈ links ∧ stage.Has links files link.reading := by
  have inside : link ∈ links := by
    cases List.mem_append.mp member with
    | inl read => exact within.readLinks read
    | inr front => exact within.input link (Option.mem_toList.mp front)
  refine ⟨inside, .reading inside ?_⟩
  rw [stage.call_readingPipes]
  exact List.mem_map_of_mem member

/-- A child of a stage keeps what has been opened for the stage. -/
theorem CommandRead.has (read : CommandRead outcomes segment state state' command tree)
    (distinct : (pipeNumbers command.openPipes).Nodup) {descriptor : Descriptor}
    (has : stage.Has tree.links tree.files descriptor) :
    descriptor ∈ state'.kernel.descriptors ∧ 2 < descriptor.number ∧
      ∀ pid descriptors,
        Child.Keeps { pid, command, call := stage.call, descriptors } descriptor.number := by
  have owned : ∀ {number pid descriptors},
      Child.Owns { pid, command, call := stage.call, descriptors } number →
      Child.Keeps { pid, command, call := stage.call, descriptors } number := by
    rintro number pid descriptors ⟨index, pipe, entry, ends⟩
    refine (Child.keeps_iff distinct ?_).mpr ⟨index, pipe, entry, ends⟩
    exact mem_pipeNumbers.mpr ⟨pipe, List.mem_of_getElem? entry, ends.imp And.left And.left⟩
  cases has with
  | file member =>
      have entered := read.entered (List.mem_append_right _ member)
      refine ⟨entered.1, read.wires.openedAbove _ member, fun pid descriptors => ?_⟩
      have foreign : descriptor.number ∉ pipeNumbers command.openPipes := by
        rw [read.openPipes, mem_link_descriptors]
        rintro ⟨other, link, same⟩
        have entered' := read.entered (List.mem_append_left _ link)
        have equal : other = descriptor :=
          List.inj_on_of_nodup_map read.wires.valid.distinct entered'.1 entered.1 same
        obtain ⟨serial, file⟩ := read.file_of_files member
        obtain ⟨link, _, inside⟩ := List.mem_flatMap.mp link
        rw [← equal] at file
        simp only [Link.descriptors, List.mem_cons, List.not_mem_nil, or_false] at inside
        rcases inside with rfl | rfl <;> cases file
      refine ⟨fun index pipe entry same => ?_, fun index pipe entry same => ?_⟩
      · exact absurd (mem_pipeNumbers.mpr ⟨pipe, List.mem_of_getElem? entry, .inl same⟩) foreign
      · exact absurd (mem_pipeNumbers.mpr ⟨pipe, List.mem_of_getElem? entry, .inr same⟩) foreign
  | @reading link member own =>
      have entered := read.entered (List.mem_append_left _ (mem_link_reading member))
      refine ⟨entered.1, (read.wires.endsAbove link member).1, fun _ _ => owned ?_⟩
      exact ⟨link.index, link.ends, read.openPipes_index member, .inl ⟨rfl, own⟩⟩
  | @writing link member own =>
      have entered := read.entered (List.mem_append_left _ (mem_link_writing member))
      refine ⟨entered.1, (read.wires.endsAbove link member).2, fun _ _ => owned ?_⟩
      exact ⟨link.index, link.ends, read.openPipes_index member, .inr ⟨rfl, own⟩⟩

/-- The file of a redirection, among the calls of `open`. -/
theorem CommandRead.request (read : CommandRead outcomes segment state state' command tree)
    {request : Descriptor × CString × OpenMode} (member : request ∈ tree.requests) :
    ∃ serial, request.1.file = .file serial ∧
      state'.kernel.opens[serial]? = some request.2 := by
  obtain ⟨index, found⟩ := List.mem_iff_getElem?.mp member
  obtain ⟨label, opened⟩ := List.getElem?_zip_eq_some.mp found
  have bound := (List.getElem?_eq_some_iff.mp opened).1
  have files := congrArg (·[index]?) read.wires.files
  simp only [List.getElem?_map, label, Option.map_some, List.getElem?_range' bound,
    Nat.one_mul, Option.some.injEq] at files
  refine ⟨state.kernel.opens.length + index, files, ?_⟩
  have opens : state'.kernel.opens = state.kernel.opens ++ tree.opens := read.wires.opensMade
  rw [opens, List.getElem?_append_right (Nat.le_add_right _ _), Nat.add_sub_cancel_left, opened]

end Read

/-! ## The streams of a child -/

/-- The child runs the stage: its standard descriptors refer to what the streams of the
stage are to refer to, and the read ends of its pipes, which are the paths of the
substitutions in its arguments, to these pipes. -/
structure Child.Runs (child : Child) (own : Stream → Option OpenFile)
    (opens : List (CString × OpenMode)) (stage : WiredStage) : Prop where
  call : child.call = stage.call
  streams : ∀ stream : Stream,
    fileOf child.descriptors stream.fileno = stage.file own stream
  sources : ∀ link ∈ stage.sources,
    fileOf child.descriptors link.readEnd = some (.pipeRead link.serial)
  redirections : ∀ stream descriptor, stage.items.lastRedirection stream = some descriptor →
    ∃ serial, descriptor.file = .file serial ∧ opens[serial]? = stage.items.lastRequest stream

/-- What the standard descriptors refer to. -/
def Kernel.streams (kernel : Kernel) (stream : Stream) : Option OpenFile :=
  fileOf kernel.descriptors stream.fileno

theorem Stream.fileno_le (stream : Stream) : 0 ≤ stream.fileno ∧ stream.fileno ≤ 2 := by
  cases stream <;> decide

section Forked

variable {command : Command} {base : Descriptor → Prop} {call : CommandCall} {fd fd2 : Int × Int}
  {kernel : Kernel}

/-- What the shell needs and the child does not close refers to the same file in both. -/
theorem Based.kept (based : Based base kernel)
    (fresh : ∀ descriptor, base descriptor → descriptor.number ∉ [fd.1, fd.2, fd2.1, fd2.2])
    {descriptor : Descriptor} (inside : base descriptor)
    (keeps : Child.Keeps { pid := 0, command, call, descriptors := [] } descriptor.number) :
    fileOf (keptKernel command call fd fd2 kernel).descriptors descriptor.number =
      some descriptor.file := by
  rw [fileOf_keptKernel (fresh descriptor inside) keeps]
  exact fileOf_of_mem based.valid.distinct (based.opened descriptor inside)

end Forked

section Stage

variable {outcomes : FileOutcomes} {line : CString} {start parsed : ParserState} {index : Nat}
  {command : Command} {segment : CString} {tree : Pipeline Labels.wired} {stage : WiredStage}

theorem LineCommand.has
    (made : LineCommand outcomes line start parsed index command segment tree)
    {descriptor : Descriptor} (has : stage.Has tree.links tree.files descriptor) :
    descriptor ∈ parsed.kernel.descriptors ∧ 2 < descriptor.number ∧
      Child.Keeps { pid := 0, command, call := stage.call, descriptors := [] }
        descriptor.number := by
  obtain ⟨opened, above, keeps⟩ := made.read.has made.obtained.distinct has
  obtain ⟨reading, writing⟩ := keeps 0 []
  exact ⟨made.after.kept descriptor opened, above, reading, writing⟩

theorem Child.Forked.exists_stage {child : Child} {base : Descriptor → Prop}
    (made : LineCommand outcomes line start parsed index command segment tree)
    (forked : child.Forked command base) :
    ∃ stage ∈ tree.wiredStages segment none none, stage.call = child.call := by
  have inside : child.call ∈ (tree.wiredStages segment none none).map WiredStage.call := by
    rw [tree.map_call_wiredStages]
    exact made.read.perm.mem_iff.mp forked.call
  exact List.mem_map.mp inside

/-- Where a stream of a stage is to be found among what the shell needs. -/
theorem LineCommand.exists_source (valid : start.kernel.Valid)
    (made : LineCommand outcomes line start parsed index command segment tree)
    (member : stage ∈ tree.wiredStages segment none none) (stream : Stream) :
    ∃ descriptor, Needed parsed.kernel [command] descriptor ∧
      descriptor.number = stage.call.fd stream ∧
      (descriptor.number = stream.fileno ∨ 2 < descriptor.number) ∧
      Child.Keeps { pid := 0, command, call := stage.call, descriptors := [] } descriptor.number ∧
      stage.file start.kernel.streams stream = some descriptor.file := by
  obtain ⟨within, listed⟩ := made.read.within member
  have number := stage.call_fd stream
  cases opened : stage.descriptor stream with
  | some descriptor =>
      obtain ⟨present, above, keeps⟩ := made.has (within.has opened)
      rw [opened, Option.map_some, Option.getD_some] at number
      have fds : descriptor.number ∈ command.commandCalls.flatMap CommandCall.fds := by
        refine List.mem_flatMap.mpr ⟨stage.call, listed, ?_⟩
        rw [← number]
        cases stream <;> simp [CommandCall.fds, CommandCall.fd]
      refine ⟨descriptor, ⟨present, .inr ⟨command, .head _, .inr ⟨above, fds⟩⟩⟩, number.symm,
        .inr above, keeps, ?_⟩
      simp [WiredStage.file, opened]
  | none =>
      rw [opened, Option.map_none, Option.getD_none] at number
      have small := stream.fileno_le
      obtain ⟨descriptor, present, own⟩ :=
        Kernel.mem_numbers.mp (valid.standard stream.fileno small.1 small.2)
      have later := made.after.kept _ (made.obtained.kept _ (made.before.kept _ present))
      have none : ∀ pipe ∈ command.openPipes, pipe.1 ≠ descriptor.number ∧
          pipe.2 ≠ descriptor.number := by
        intro pipe member
        have first := mem_pipeNumbers.mpr ⟨pipe, member, .inl rfl⟩
        have second := mem_pipeNumbers.mpr ⟨pipe, member, .inr rfl⟩
        have above := made.obtained.sound.above _ first
        have above' := made.obtained.sound.above _ second
        omega
      refine ⟨descriptor, ⟨later, .inl (own ▸ small.2)⟩, own.trans number.symm, .inl own, ?_, ?_⟩
      · refine ⟨fun _ pipe entry same => ?_, fun _ pipe entry same => ?_⟩
        · exact absurd same (none pipe (List.mem_of_getElem? entry)).1
        · exact absurd same (none pipe (List.mem_of_getElem? entry)).2
      · rw [WiredStage.file, opened, Option.map_none, Option.none_or, Kernel.streams, ← own]
        exact fileOf_of_mem valid.distinct present

/-- The file of the last redirection of a stream is the one opened for it. -/
theorem LineCommand.redirected
    (made : LineCommand outcomes line start parsed index command segment tree)
    (member : stage ∈ tree.wiredStages segment none none) {stream : Stream}
    {descriptor : Descriptor} (redirected : stage.items.lastRedirection stream = some descriptor) :
    ∃ serial, descriptor.file = .file serial ∧
      parsed.kernel.opens[serial]? = stage.items.lastRequest stream := by
  have within := (made.read.within member).1
  rcases stage.items.lastRedirection_request stream with
    ⟨none, _⟩ | ⟨request, listed, label, last⟩
  · rw [none] at redirected
    cases redirected
  · obtain ⟨serial, file, opened⟩ := made.read.request (within.requests listed)
    rw [label] at redirected
    cases redirected
    obtain ⟨later, whole⟩ := made.after.opens
    refine ⟨serial, file, ?_⟩
    rw [last, ← whole]
    exact List.getElem?_append_left (List.getElem?_eq_some_iff.mp opened).1 ▸ opened

/-- A child forked for the call of a stage runs the stage. -/
theorem Child.Forked.runs {child : Child} (valid : start.kernel.Valid)
    (made : LineCommand outcomes line start parsed index command segment tree)
    (forked : child.Forked command (Needed parsed.kernel [command]))
    (member : stage ∈ tree.wiredStages segment none none) (call : stage.call = child.call) :
    child.Runs start.kernel.streams parsed.kernel.opens stage := by
  obtain ⟨_, _, fd, fd2, kernel, based, fresh, same⟩ := forked
  have within := (made.read.within member).1
  rw [← call] at same
  -- where each stream is to be found before the standard descriptors are replaced
  have found : ∀ stream, (stage.call.fd stream = stream.fileno ∨ 2 < stage.call.fd stream) ∧
      ∃ file, fileOf (keptKernel command stage.call fd fd2 kernel).descriptors
          (stage.call.fd stream) = some file ∧
        stage.file start.kernel.streams stream = some file := by
    intro stream
    obtain ⟨descriptor, needed, number, place, keeps, file⟩ :=
      made.exists_source valid member stream
    rw [← number]
    exact ⟨place, descriptor.file, based.kept fresh needed keeps, file⟩
  choose apart files kept meant using found
  have descriptors := @fileOf_childKernel _ _ fd fd2 kernel files apart kept
  refine ⟨call.symm, ?_, ?_, fun stream descriptor => made.redirected member⟩
  · intro stream
    rw [same, descriptors, meant]
    cases stream <;> rfl
  · intro link read
    obtain ⟨inside, has⟩ := within.has_source read
    obtain ⟨present, above, keeps⟩ := made.has has
    have pipe : link.readEnd ∈ pipeNumbers command.openPipes := by
      have own := made.read.openPipes_index inside
      exact mem_pipeNumbers.mpr ⟨_, List.mem_of_getElem? own, .inl rfl⟩
    have needed : Needed parsed.kernel [command] link.reading :=
      ⟨present, .inr ⟨command, .head _, .inl pipe⟩⟩
    have large : 2 < link.readEnd := above
    rw [same, descriptors, if_neg (by unfold stderrFileno; omega),
      if_neg (by unfold stdoutFileno; omega), if_neg (by unfold stdinFileno; omega)]
    exact based.kept fresh needed keeps

end Stage

/-- The command the execution of a line comes to is one of the line. -/
theorem Comes.made {environment : Environment} {line : CString} {start parsed state : Shell}
    {commands : List (Option Command)} {index : Nat} {command : Command}
    (comes : Comes environment commands parsed index command state)
    (valid : start.parser.kernel.Valid)
    (intact : LineIntact environment.files line start.parser)
    (read : readLine environment line start = .ok (some commands) parsed) :
    ∃ segment tree, commands[index]? = some (some command) ∧
      LineCommand environment.files line start.parser parsed.parser index command segment tree ∧
      Based (Needed parsed.parser.kernel [command]) state.parser.kernel := by
  obtain ⟨accepted, rfl, _⟩ := readLine_opened valid read
  have based : Based (Needed parsed.parser.kernel accepted) parsed.parser.kernel :=
    ⟨readLine_valid valid read, fun descriptor needed => needed.1⟩
  obtain ⟨entry, based'⟩ := comes.based rfl (readLine_disjoint valid intact read) based
  have entry' : (accepted.map some)[index]? = some (some command) := by
    rw [List.getElem?_map, entry]
    rfl
  obtain ⟨segment, tree, made⟩ := readLine_lineCommand valid intact read entry'
  exact ⟨segment, tree, entry', made, based'⟩

/-- Every child that is launched while a line is executed runs a stage of the command that
launches it, if no freed call is read while the line is parsed. -/
theorem line_children_streams {environment : Environment} {line : CString} {start parsed : Shell}
    {commands : List (Option Command)} (valid : start.parser.kernel.Valid)
    (read : readLine environment line start = .ok (some commands) parsed) :
    Ends (fun finish => Recorded (Event.LaunchedFor environment commands parsed)
        parsed.control.trace finish.control.trace) parsed
        (executeCommands environment commands) ∧
      (LineIntact environment.files line start.parser →
        ∀ index child, Launches environment commands parsed index child →
          ∃ command segment tree, commands[index]? = some (some command) ∧
            LineCommand environment.files line start.parser parsed.parser index command segment
              tree ∧
            ∃ stage ∈ tree.wiredStages segment none none,
              child.Runs start.parser.kernel.streams parsed.parser.kernel.opens stage) := by
  constructor
  · obtain ⟨accepted, rfl, opened, sound⟩ := readLine_opened valid read
    exact executeCommands_launches accepted opened sound
  · intro intact index child launches
    obtain ⟨command, state, comes, launched⟩ := launches.comes
    obtain ⟨segment, tree, entry, made, based⟩ := comes.made valid intact read
    have forked := launched.forked based
    obtain ⟨stage, member, call⟩ := forked.exists_stage made
    exact ⟨command, segment, tree, entry, made, stage, member,
      forked.runs valid made member call⟩

/-- `b` reads from the pipe, and its errors go to the last file. -/
theorem redirected_pipeline_streams :
    ∃ commands parsed index child,
      readLine .exiting "a | b 2> e 2>> f > g & c".toList (initInternals "/".toList) =
        .ok (some commands) parsed ∧
      Launches .exiting commands parsed index child ∧
      fileOf child.descriptors 0 = some (.pipeRead 0) ∧
      fileOf child.descriptors 2 = some (.file 1) ∧
      ∃ (segment : CString) (tree : Pipeline Labels.wired),
        ∃ stage ∈ tree.wiredStages segment none none,
          child.Runs startedShell.kernel.streams parsed.parser.kernel.opens stage := by
  have valid : (initInternals "/".toList).parser.kernel.Valid := valid_startedShell
  obtain ⟨commands, parsed, index, child, read, launches, checked⟩ :=
    @exists_launched .exiting "a | b 2> e 2>> f > g & c".toList _ valid
      (fun _ child => decide (fileOf child.descriptors 0 = some (.pipeRead 0) ∧
        fileOf child.descriptors 2 = some (.file 1))) (by decide +kernel)
  have intact : LineIntact Environment.exiting.files
      "a | b 2> e 2>> f > g & c".toList startedShell :=
    lineIntact_of_lastExitCode (by decide +kernel)
  obtain ⟨_, segment, tree, _, _, stage, member, runs⟩ :=
    (line_children_streams valid read).2 intact index child launches
  obtain ⟨input, error⟩ := of_decide_eq_true checked
  exact ⟨commands, parsed, index, child, read, launches, input, error, segment, tree, stage, member,
    runs⟩

/-! ## The streams of the shell -/

theorem executeCommands_based {environment : Environment} {base : Descriptor → Prop}
    (commands : List Command) :
    ∀ {start finish : Shell}, (∀ command ∈ commands, command.Sound) →
      (∀ command ∈ commands, ∀ descriptor, base descriptor →
        ¬ command.Claims descriptor.number) →
      Based base start.parser.kernel →
      executeCommands environment (commands.map some) start = .ok ⟨⟩ finish →
      Based base finish.parser.kernel := by
  induction commands with
  | nil =>
      rintro _ _ _ _ based ⟨⟩
      exact based
  | cons command later ih =>
      intro start finish sound free based ran
      obtain ⟨_, _, recorded, ran⟩ := bind_eq_ok.mp ran
      cases recorded
      obtain ⟨result, middle, executed, ran⟩ := bind_eq_ok.mp ran
      have own := sound command (.head _)
      have begun : Based base (start.recording (.command command (later.map some))).parser.kernel :=
        based
      refine ih (fun other member => sound other (.tail _ member))
        (fun other member => free other (.tail _ member)) ?_ ran
      exact executeCommand_based begun own (free command (.head _)) executed

theorem readLine_based {environment : Environment} {base : Descriptor → Prop} {line : CString}
    {start parsed : Shell} {commands : Option (List (Option Command))}
    (standard : ∀ descriptor, base descriptor → descriptor.number ≤ 2)
    (based : Based base start.parser.kernel)
    (read : readLine environment line start = .ok commands parsed) :
    Based base parsed.parser.kernel := by
  refine ⟨readLine_valid based.valid read, fun descriptor inside => ?_⟩
  -- What is closed for a freed call is above the standard descriptors.
  have untouched : Untouched environment.files descriptor.number :=
    fun above => absurd (standard descriptor inside) (Int.not_le.mpr above)
  rw [(readLine_parsed read).2]
  exact parseReadLine_keeps based.valid untouched (based.opened descriptor inside)

theorem promptTurn_based {environment : Environment} {base : Descriptor → Prop}
    (standard : ∀ descriptor, base descriptor → descriptor.number ≤ 2) {input : Option CString}
    {start finish : Shell} (based : Based base start.parser.kernel)
    (ran : promptTurn environment input start = .ok ⟨⟩ finish) :
    Based base finish.parser.kernel := by
  obtain ⟨_, updated, update, ran⟩ := bind_eq_ok.mp ran
  obtain ⟨text, prompted, shown, ran⟩ := bind_eq_ok.mp ran
  obtain ⟨_, recorded, record, ran⟩ := bind_eq_ok.mp ran
  obtain ⟨commands, read, reads, ran⟩ := bind_eq_ok.mp ran
  have same : recorded.parser = start.parser :=
    calc
      recorded.parser = prompted.parser := (liftJob_keepsParser _ prompted).of_ok record
      _ = updated.parser := ((getPromptString_moves environment updated).of_ok shown).parser
      _ = start.parser := (liftJob_keepsParser _ start).of_ok update
  rw [← same] at based
  have parsed := readLine_based standard based reads
  cases commands with
  | none =>
      cases ran
      exact parsed
  | some commands =>
      obtain ⟨accepted, rfl, _, sound⟩ := readLine_opened based.valid reads
      refine executeCommands_based accepted sound ?_ parsed ran
      intro command member descriptor inside claims
      have above := (sound command member).claims_above claims
      have small := standard descriptor inside
      omega

/-- Whenever the shell is about to read a line, its standard descriptors are those it has
been started with. -/
theorem prompt_streams {environment : Environment} {cwd : CString} {finish : Shell}
    (inputs : List (Option CString))
    (ran : prompt environment inputs (initInternals cwd) = .ok ⟨⟩ finish) :
    finish.parser.kernel.streams = startedShell.kernel.streams := by
  have kept : ∀ {start : Shell},
      Based (· ∈ startedShell.kernel.descriptors) start.parser.kernel →
      prompt environment inputs start = .ok ⟨⟩ finish →
      Based (· ∈ startedShell.kernel.descriptors) finish.parser.kernel := by
    clear ran
    induction inputs with
    | nil =>
        rintro _ based ⟨⟩
        exact based
    | cons input rest ih =>
        intro start based ran
        unfold prompt at ran
        obtain ⟨_, _, got, ran⟩ := bind_eq_ok.mp ran
        cases got
        split at ran
        · cases ran
          exact based
        · obtain ⟨_, middle, turn, ran⟩ := bind_eq_ok.mp ran
          exact ih (promptTurn_based (by decide) based turn) ran
  have based := kept ⟨valid_startedShell, fun _ member => member⟩ ran
  have own : ∀ descriptor ∈ startedShell.kernel.descriptors,
      fileOf finish.parser.kernel.descriptors descriptor.number = some descriptor.file :=
    fun descriptor member => fileOf_of_mem based.valid.distinct (based.opened descriptor member)
  funext stream
  cases stream with
  | stdin => exact own ⟨0, .inherited 0⟩ (.head _)
  | stdout => exact own ⟨1, .inherited 1⟩ (.tail _ (.head _))
  | stderr => exact own ⟨2, .inherited 2⟩ (.tail _ (.tail _ (.head _)))

end Jsh
