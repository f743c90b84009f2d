import Jsh.Closing

/-!
# What a child inherits

The ends of pipes that a child of the shell has open at its `execvp`: those the shell
has open at the `fork`, without the ends the child closes itself.
-/

set_option autoImplicit false

namespace Jsh

open Library

/-! ## Descriptors of a child -/

/-- The descriptor is an end of the pipe that this call of `pipe` has made. -/
def Descriptor.IsEnd (descriptor : Descriptor) (serial : Nat) : Prop :=
  descriptor.file = .pipeRead serial ∨ descriptor.file = .pipeWrite serial

/-- The child does not close the number as an end of a pipe of its command. -/
structure Child.Keeps (child : Child) (number : Int) : Prop where
  reading : ∀ index pipe, child.command.openPipes[index]? = some pipe → pipe.1 = number →
    index ∈ child.call.readingPipes
  writing : ∀ index pipe, child.command.openPipes[index]? = some pipe → pipe.2 = number →
    index ∈ child.call.writingPipes

theorem mem_foldl_spared (spared : Nat → Bool) (fd : Int × Int → Int) {descriptor : Descriptor}
    (entries : List ((Int × Int) × Nat)) : ∀ {kernel : Kernel},
    descriptor ∈ (entries.foldl (fun kernel (pipe, index) =>
        if spared index then kernel else kernel.close (fd pipe)) kernel).descriptors ↔
      descriptor ∈ kernel.descriptors ∧
        ∀ entry ∈ entries, fd entry.1 = descriptor.number → spared entry.2 = true := by
  induction entries with
  | nil => simp
  | cons entry entries ih =>
      intro kernel
      obtain ⟨pipe, index⟩ := entry
      rw [List.foldl_cons, ih, List.forall_mem_cons]
      dsimp only
      cases spares : spared index with
      | true => simp
      | false =>
          rw [if_neg Bool.false_ne_true, Kernel.mem_close, and_assoc]
          refine and_congr_right fun _ => and_congr_left fun _ => ?_
          simp [eq_comm]

theorem mem_closeReadingPipes {command : Command} {call : CommandCall} {kernel : Kernel}
    {descriptor : Descriptor} :
    descriptor ∈ (closeReadingPipes command call kernel).descriptors ↔
      descriptor ∈ kernel.descriptors ∧ ∀ index pipe, command.openPipes[index]? = some pipe →
        pipe.1 = descriptor.number → index ∈ call.readingPipes := by
  rw [closeReadingPipes, mem_foldl_spared call.readingPipes.contains (·.1)]
  refine and_congr_right fun _ => ?_
  simp only [Prod.forall, List.mem_zipIdx_iff_getElem?, List.contains_iff_mem]
  exact ⟨fun all index readEnd writeEnd => all readEnd writeEnd index,
    fun all readEnd writeEnd index => all index readEnd writeEnd⟩

theorem mem_closeWritingPipes {command : Command} {call : CommandCall} {kernel : Kernel}
    {descriptor : Descriptor} :
    descriptor ∈ (closeWritingPipes command call kernel).descriptors ↔
      descriptor ∈ kernel.descriptors ∧ ∀ index pipe, command.openPipes[index]? = some pipe →
        pipe.2 = descriptor.number → index ∈ call.writingPipes := by
  rw [closeWritingPipes, mem_foldl_spared call.writingPipes.contains (·.2)]
  refine and_congr_right fun _ => ?_
  simp only [Prod.forall, List.mem_zipIdx_iff_getElem?, List.contains_iff_mem]
  exact ⟨fun all index readEnd writeEnd => all readEnd writeEnd index,
    fun all readEnd writeEnd index => all index readEnd writeEnd⟩

theorem Kernel.mem_dup2 {kernel : Kernel} {oldfd newfd : Int} {descriptor : Descriptor}
    (apart : descriptor.number ≠ newfd) :
    descriptor ∈ (kernel.dup2 oldfd newfd).descriptors ↔ descriptor ∈ kernel.descriptors := by
  unfold Kernel.dup2
  split
  · rfl
  · split
    · rfl
    · rw [List.mem_cons, Kernel.mem_close]
      constructor
      · rintro (rfl | ⟨member, _⟩)
        · exact absurd rfl apart
        · exact member
      · exact fun member => .inr ⟨member, apart⟩

/-- The descriptors of a child above the standard ones. -/
theorem mem_childKernel {command : Command} {call : CommandCall} {pid : Int} {fd fd2 : Int × Int}
    {kernel : Kernel} {descriptors : List Descriptor} {descriptor : Descriptor}
    (above : 2 < descriptor.number) :
    descriptor ∈ (childKernel command call fd fd2 kernel).descriptors ↔
      (descriptor ∈ kernel.descriptors ∧ descriptor.number ∉ [fd.1, fd.2, fd2.1, fd2.2]) ∧
        Child.Keeps { pid, command, call, descriptors } descriptor.number := by
  unfold childKernel
  dsimp only
  rw [Kernel.mem_dup2 (by unfold stderrFileno; omega),
    Kernel.mem_dup2 (by unfold stdoutFileno; omega),
    Kernel.mem_dup2 (by unfold stdinFileno; omega), mem_closeWritingPipes, mem_closeReadingPipes]
  simp only [Kernel.mem_close, List.mem_cons, List.not_mem_nil, or_false, not_or]
  constructor
  · rintro ⟨⟨⟨⟨⟨⟨member, second⟩, third⟩, first⟩, fourth⟩, reading⟩, writing⟩
    exact ⟨⟨member, first, second, third, fourth⟩, reading, writing⟩
  · rintro ⟨⟨member, first, second, third, fourth⟩, reading, writing⟩
    exact ⟨⟨⟨⟨⟨⟨member, second⟩, third⟩, first⟩, fourth⟩, reading⟩, writing⟩

theorem pipes_foldl {α : Type} {step : Kernel → α → Kernel}
    (keeps : ∀ kernel value, (step kernel value).pipes = kernel.pipes) (values : List α) :
    ∀ kernel, (values.foldl step kernel).pipes = kernel.pipes := by
  induction values with
  | nil => exact fun _ => rfl
  | cons value values ih => exact fun kernel => (ih _).trans (keeps kernel value)

theorem pipes_closePipes (openPipes : List (Int × Int)) (kernel : Kernel) :
    (closePipes openPipes kernel).pipes = kernel.pipes := by
  refine pipes_foldl ?_ openPipes kernel
  exact fun _ _ => rfl

theorem pipes_closeUnusedFileDescriptors (calls : List CommandCall)
    (openPipes : List (Int × Int)) (kernel : Kernel) :
    (closeUnusedFileDescriptors calls openPipes kernel).pipes = kernel.pipes := by
  refine pipes_foldl (fun kernel call => pipes_foldl (fun kernel fd => ?_) _ kernel) calls kernel
  split <;> rfl

/-! ## Steps of the shell -/

/-- The shell's table is valid, and these pipes have been made. -/
structure Opened (bound : Nat) (kernel : Kernel) : Prop where
  valid : kernel.Valid
  pipes : bound ≤ kernel.pipes

/-- The same ends of the first pipes are open. -/
def SameEnds (bound : Nat) (kernel kernel' : Kernel) : Prop :=
  ∀ descriptor serial, descriptor.IsEnd serial → serial < bound →
    (descriptor ∈ kernel'.descriptors ↔ descriptor ∈ kernel.descriptors)

/-- The child has the ends of the first pipes that are open in the shell, without those it
closes. -/
structure Child.Inherits (child : Child) (command : Command) (bound : Nat) (kernel : Kernel) :
    Prop where
  command : child.command = command
  ends : ∀ descriptor serial, descriptor.IsEnd serial → serial < bound → 2 < descriptor.number →
    (descriptor ∈ child.descriptors ↔
      descriptor ∈ kernel.descriptors ∧ child.Keeps descriptor.number)

def Event.Inherits (command : Command) (bound : Nat) (kernel : Kernel) : Event → Prop
  | .child launched => launched.Inherits command bound kernel
  | _ => True

/-- The ends of the first pipes are still open, and the children have inherited them. -/
structure Inherited (command : Command) (bound : Nat) (start finish : Shell) : Prop where
  opened : Opened bound finish.parser.kernel
  same : SameEnds bound start.parser.kernel finish.parser.kernel
  recorded : Recorded (Event.Inherits command bound start.parser.kernel) start.control.trace
    finish.control.trace

def Inheriting (command : Command) (bound : Nat) (start finish : Shell) : Prop :=
  Opened bound start.parser.kernel → Inherited command bound start finish

instance {command : Command} {bound : Nat} : Std.Refl (Inheriting command bound) where
  refl _ opened := ⟨opened, fun _ _ _ _ => Iff.rfl, refl_of (Recorded _) _⟩

theorem Event.Inherits.of_same {command : Command} {bound : Nat} {kernel kernel' : Kernel}
    (same : SameEnds bound kernel kernel') {event : Event}
    (inherits : event.Inherits command bound kernel') : event.Inherits command bound kernel := by
  cases event with
  | child launched =>
      refine ⟨inherits.command, fun descriptor serial own early above => ?_⟩
      rw [inherits.ends descriptor serial own early above, same descriptor serial own early]
  | _ => trivial

instance {command : Command} {bound : Nat} : IsTrans Shell (Inheriting command bound) where
  trans start middle finish before after opened := by
    obtain ⟨opened', same, recorded⟩ := before opened
    obtain ⟨opened'', same', recorded'⟩ := after opened'
    refine ⟨opened'', fun descriptor serial own early => ?_, ?_⟩
    · rw [same' descriptor serial own early, same descriptor serial own early]
    · exact trans_of (Recorded _) recorded (recorded'.mono fun _ => Event.Inherits.of_same same)

/-- The event is not the launch of a child. -/
def Event.Childless : Event → Prop
  | .child _ => False
  | _ => True

theorem Event.Childless.inherits {command : Command} {bound : Nat} {kernel : Kernel}
    {event : Event} (childless : event.Childless) : event.Inherits command bound kernel := by
  cases event with
  | child launched => exact childless.elim
  | _ => trivial

theorem Event.OfJobs.childless {event : Event} (ofJobs : event.OfJobs) : event.Childless := by
  cases event with
  | child launched => exact ofJobs
  | _ => trivial

/-- Closing some numbers launches no child. -/
structure Sheds (numbers : List Int) (start finish : Shell) : Prop where
  pipes : finish.parser.kernel.pipes = start.parser.kernel.pipes
  fewer : ∀ descriptor ∈ finish.parser.kernel.descriptors,
    descriptor ∈ start.parser.kernel.descriptors
  rest : ∀ descriptor ∈ start.parser.kernel.descriptors, descriptor.number ∉ numbers →
    descriptor ∈ finish.parser.kernel.descriptors
  valid : (∀ number ∈ numbers, 2 < number) → start.parser.kernel.Valid →
    finish.parser.kernel.Valid
  recorded : Recorded Event.Childless start.control.trace finish.control.trace

section Sheds

variable {numbers : List Int}

instance : Std.Refl (Sheds numbers) where
  refl _ := ⟨rfl, fun _ member => member, fun _ member _ => member, fun _ valid => valid,
    refl_of (Recorded _) _⟩

instance : IsTrans Shell (Sheds numbers) where
  trans _ _ _ before after := by
    constructor
    case pipes => exact after.pipes.trans before.pipes
    case fewer =>
      exact fun descriptor member => before.fewer descriptor (after.fewer descriptor member)
    case rest =>
      exact fun descriptor member free =>
        after.rest descriptor (before.rest descriptor member free) free
    case valid => exact fun above valid => after.valid above (before.valid above valid)
    case recorded => exact trans_of (Recorded _) before.recorded after.recorded

theorem Sheds.of_silent {α : Type} {action : JobAction α} (silent : Moves Silently action) :
    Moves (Sheds numbers) (liftJob action) := by
  refine liftJob_lifted (silent.mono ?_)
  rintro start finish silently shell rfl
  refine ⟨rfl, fun _ member => member, fun _ member _ => member, fun _ valid => valid, ?_⟩
  exact silently.trace.mono fun _ silent => silent.quiet.ofJobs.childless

/-- The state after `close`. -/
def Shell.closing (shell : Shell) (number : Int) : Shell :=
  { shell with parser := { shell.parser with kernel := shell.parser.kernel.close number } }

theorem Sheds.close {number : Int} (listed : number ∈ numbers) (shell : Shell) :
    Sheds numbers shell (shell.closing number) where
  pipes := rfl
  fewer _ member := (Kernel.mem_close.mp member).1
  rest descriptor member free := by
    refine Kernel.mem_close.mpr ⟨member, ?_⟩
    rintro rfl
    exact free listed
  valid above valid := valid.close (above number listed)
  recorded := refl_of (Recorded _) _

theorem Sheds.of_course {α : Type} {action : JobAction α}
    (course : Moves (Course fun _ => True) action) : Moves (Sheds numbers) (liftJob action) := by
  refine liftJob_lifted (course.mono ?_)
  rintro start finish course shell rfl
  refine ⟨rfl, fun _ member => member, fun _ member _ => member, fun _ valid => valid, ?_⟩
  exact course.recorded.mono fun _ => Event.OfJobs.childless

theorem Sheds.closePipes (openPipes : List (Int × Int)) :
    Moves (Sheds (pipeNumbers openPipes)) (modifyKernel (closePipes openPipes)) := by
  refine .modify fun shell => ?_
  constructor
  case pipes => exact pipes_closePipes openPipes _
  case fewer => exact fun descriptor member => (mem_closePipes.mp member).1
  case rest => exact fun descriptor member free => mem_closePipes.mpr ⟨member, free⟩
  case valid =>
    intro above valid
    refine valid.closePipes fun pipe member => ?_
    exact ⟨above _ (mem_pipeNumbers.mpr ⟨pipe, member, .inl rfl⟩),
      above _ (mem_pipeNumbers.mpr ⟨pipe, member, .inr rfl⟩)⟩
  case recorded => exact refl_of (Recorded _) _

/-- Closing numbers that are no ends of the first pipes. -/
theorem Sheds.inheriting {command : Command} {bound : Nat} {start finish : Shell}
    (sheds : Sheds numbers start finish) (above : ∀ number ∈ numbers, 2 < number)
    (apart : ∀ descriptor ∈ start.parser.kernel.descriptors, ∀ serial, descriptor.IsEnd serial →
      serial < bound → descriptor.number ∉ numbers) : Inheriting command bound start finish := by
  intro opened
  refine ⟨⟨sheds.valid above opened.valid, sheds.pipes ▸ opened.pipes⟩, ?_, ?_⟩
  · intro descriptor serial own early
    exact ⟨sheds.fewer descriptor, fun member =>
      sheds.rest descriptor member (apart descriptor member serial own early)⟩
  · exact sheds.recorded.mono fun _ => Event.Childless.inherits

end Sheds

/-! ## Launching a call -/

section Launching

variable {environment : Environment} {command : Command} {bound : Nat}

/-- The end of `forkCall` closes the handshake pipes. -/
theorem forkCall_sheds (pid : Int) (job : Job) (fd fd2 : Int × Int) :
    Moves (Sheds [fd.1, fd.2, fd2.1, fd2.2]) (do
      modifyKernel fun kernel => (kernel.close fd.1).close fd2.2
      if !(← liftJob (outcome environment.handshake)) then
        let _ ← liftJob (kill environment pid sigkill)
        return ((none : Option InternalExitInfo), job)
      else
        modifyKernel fun kernel => kernel.close fd.2
        if !(← liftJob (outcome environment.handshake)) then
          let _ ← liftJob (kill environment pid sigkill)
          return (none, job)
        else
          modifyKernel fun kernel => kernel.close fd2.1
          return (some { pid, exitCode := uninitializedExitCode }, job)) := by
  have killed : Moves (Sheds [fd.1, fd.2, fd2.1, fd2.2]) (do
      let _ ← liftJob (kill environment pid sigkill)
      return ((none : Option InternalExitInfo), job)) :=
    (Sheds.of_silent (kill_silent environment pid sigkill)).bind fun _ => .pure _
  have asked : Moves (Sheds [fd.1, fd.2, fd2.1, fd2.2])
      (liftJob (outcome environment.handshake)) := Sheds.of_silent (outcome_silent _)
  have first : Moves (Sheds [fd.1, fd.2, fd2.1, fd2.2])
      (modifyKernel fun kernel => (kernel.close fd.1).close fd2.2) :=
    .modify fun shell => trans_of (Sheds _) (Sheds.close (by simp) shell)
      (@Sheds.close _ fd2.2 (by simp) (shell.closing fd.1))
  have second : Moves (Sheds [fd.1, fd.2, fd2.1, fd2.2])
      (modifyKernel fun kernel => kernel.close fd.2) :=
    .modify fun shell => Sheds.close (by simp) shell
  have third : Moves (Sheds [fd.1, fd.2, fd2.1, fd2.2])
      (modifyKernel fun kernel => kernel.close fd2.1) :=
    .modify fun shell => Sheds.close (by simp) shell
  refine first.bind fun _ => asked.bind fun told => ?_
  split
  · exact killed
  · refine second.bind fun _ => asked.bind fun answered => ?_
    split
    · exact killed
    · exact third.bind fun _ => .pure _

theorem forkCall_inherits {call : CommandCall} {job : Job} {fd fd2 : Int × Int} {start : Shell}
    (above : ∀ number ∈ [fd.1, fd.2, fd2.1, fd2.2], 2 < number)
    (apart : ∀ descriptor ∈ start.parser.kernel.descriptors, ∀ serial, descriptor.IsEnd serial →
      serial < bound → descriptor.number ∉ [fd.1, fd.2, fd2.1, fd2.2]) :
    Ends (Inheriting command bound start) start
      (forkCall environment command call job fd fd2) := by
  have calls : Sheds [] start start.called :=
    Sheds.of_silent (outcome_silent environment.fork) start
  have forked : Inheriting command bound start start.called :=
    calls.inheriting (by simp) (by simp)
  rw [forkCall]
  refine Ends.seq forked fun result state ran => ?_
  cases ran
  cases environment.fork start.control.calls with
  | none => exact Moves.pure _ _
  | some pid =>
      refine Ends.seq (Moves.get _) fun shell state got => ?_
      cases got
      refine Ends.seq ?_ fun _ state recorded => ?_
      · intro opened
        refine ⟨opened, fun _ _ _ _ => Iff.rfl, .single _ ⟨rfl, ?_⟩⟩
        intro descriptor serial own early large
        rw [mem_childKernel large]
        refine and_congr_left fun _ => and_iff_left_of_imp fun member => ?_
        exact apart descriptor member serial own early
      · cases recorded
        exact (forkCall_sheds _ _ fd fd2 _).inheriting above apart

/-- `pipe` makes two ends that are not among the first ones, with numbers of their own. -/
theorem Opened.pipe {outcomes : FileOutcomes} {kernel kernel' : Kernel}
    {result : Option (Int × Int)} (opened : Opened bound kernel)
    (called : kernel.pipe outcomes = (result, kernel')) :
    Opened bound kernel' ∧ SameEnds bound kernel kernel' ∧
      ∀ fd, result = some fd → (2 < fd.1 ∧ 2 < fd.2) ∧
        ∀ descriptor ∈ kernel'.descriptors, ∀ serial, descriptor.IsEnd serial → serial < bound →
          descriptor.number ≠ fd.1 ∧ descriptor.number ≠ fd.2 := by
  have valid := opened.valid.pipe called
  cases result with
  | none =>
      obtain ⟨_, rfl⟩ := Kernel.pipe_none called
      refine ⟨⟨valid, Nat.le_succ_of_le opened.pipes⟩, fun _ _ _ _ => Iff.rfl, ?_⟩
      intro fd impossible
      cases impossible
  | some fd =>
      have above := opened.valid.lt_pipe called
      obtain ⟨_, readEnd, writeEnd, rfl⟩ := Kernel.pipe_some called
      have old : ∀ descriptor : Descriptor, ∀ serial, descriptor.IsEnd serial → serial < bound →
          (descriptor ∈ (⟨fd.2, .pipeWrite kernel.pipes⟩ :: ⟨fd.1, .pipeRead kernel.pipes⟩ ::
              kernel.descriptors : List Descriptor) ↔ descriptor ∈ kernel.descriptors) := by
        intro descriptor serial own early
        have late := opened.pipes
        constructor
        · intro member
          rcases List.mem_cons.mp member with rfl | member
          · cases own with
            | inl other => cases other
            | inr same =>
                cases same
                omega
          · rcases List.mem_cons.mp member with rfl | member
            · cases own with
              | inl same =>
                  cases same
                  omega
              | inr other => cases other
            · exact member
        · exact fun member => .tail _ (.tail _ member)
      refine ⟨⟨valid, Nat.le_succ_of_le opened.pipes⟩, old, ?_⟩
      rintro _ ⟨⟩
      refine ⟨above, fun descriptor member serial own early => ?_⟩
      have inside := Kernel.mem_numbers.mpr ⟨descriptor, (old _ _ own early).mp member, rfl⟩
      constructor
      · intro same
        exact lowestFree_not_mem kernel.numbers (readEnd ▸ same ▸ inside)
      · intro same
        exact lowestFree_not_mem (fd.1 :: kernel.numbers) (writeEnd ▸ same ▸ .tail _ inside)

theorem Inheriting.of_same {start finish : Shell} (same : finish.parser = start.parser)
    (recorded : Recorded Event.Childless start.control.trace finish.control.trace) :
    Inheriting command bound start finish := by
  intro opened
  refine ⟨same ▸ opened, fun descriptor serial _ _ => ?_, ?_⟩
  · rw [same]
  · exact recorded.mono fun _ => Event.Childless.inherits

theorem Calm.childless {start finish : Shell} (calm : Calm start finish) :
    Recorded Event.Childless start.control.trace finish.control.trace :=
  calm.course.recorded.mono fun _ => Event.OfJobs.childless

/-- A built-in launches no child. -/
theorem executeInternalCommand_inherits (call : CommandCall) :
    Moves (Inheriting command bound) (executeInternalCommand environment call) := by
  intro start
  have recorded : Recorded Event.Childless start.control.trace
      (start.calling call).control.trace := .single _ trivial
  cases ran : executeInternalCommand environment call start with
  | error halt finish =>
      rw [Ends, ran]
      have calm := executeInternalCommand_error ran
      exact .of_same calm.parser (trans_of (Recorded _) recorded calm.childless)
  | ok value finish =>
      rw [Ends, ran]
      rcases executeInternalCommand_ok ran with calm | ⟨_, left⟩
      · exact .of_same calm.parser (trans_of (Recorded _) recorded calm.childless)
      · obtain ⟨control, course, _, leaves⟩ := left.control
        have quiet : Recorded Event.Childless (start.calling call).control.trace control.trace :=
          course.recorded.mono fun _ => Event.OfJobs.childless
        have said : Recorded Event.Childless control.trace finish.control.trace := by
          rw [leaves]
          exact .single _ trivial
        exact .of_same left.parser (trans_of (Recorded _) recorded
          (trans_of (Recorded _) quiet said))

theorem pipe_opened {start : Shell} (opened : Opened bound start.parser.kernel) :
    ∃ result finish, pipe environment start = .ok result finish ∧
      Inheriting command bound start finish ∧ Opened bound finish.parser.kernel ∧
      SameEnds bound start.parser.kernel finish.parser.kernel ∧
      ∀ fd, result = some fd → (2 < fd.1 ∧ 2 < fd.2) ∧
        ∀ descriptor ∈ finish.parser.kernel.descriptors, ∀ serial, descriptor.IsEnd serial →
          serial < bound → descriptor.number ≠ fd.1 ∧ descriptor.number ≠ fd.2 := by
  obtain ⟨opened', same, apart⟩ := opened.pipe rfl
  exact ⟨_, _, rfl, fun _ => ⟨opened', same, refl_of (Recorded _) _⟩, opened', same, apart⟩

theorem executeSingleCommand_inherits (call : CommandCall) (job : Job) :
    Moves (Inheriting command bound) (executeSingleCommand environment command call job) := by
  intro start
  unfold executeSingleCommand
  split
  · exact ((executeInternalCommand_inherits call).bind fun _ => .pure _) start
  · have calling : Inheriting command bound start (start.calling call) :=
      .of_same rfl (.single _ trivial)
    refine Ends.step rfl calling ?_
    by_cases opened : Opened bound (start.calling call).parser.kernel
    · obtain ⟨first, piped₁, ran₁, moved₁, opened₁, _, apart₁⟩ := pipe_opened opened
      refine Ends.step ran₁ moved₁ ?_
      cases first with
      | none => exact Moves.pure _ _
      | some fd =>
          obtain ⟨second, piped₂, ran₂, moved₂, _, same₂, apart₂⟩ := pipe_opened opened₁
          refine Ends.step ran₂ moved₂ ?_
          cases second with
          | none => exact Moves.pure _ _
          | some fd2 =>
              obtain ⟨above₁, apart₁⟩ := apart₁ fd rfl
              obtain ⟨above₂, apart₂⟩ := apart₂ fd2 rfl
              apply forkCall_inherits
              · simp [above₁, above₂]
              · intro descriptor member serial own early
                have old := (same₂ descriptor serial own early).mp member
                simp [apart₁ descriptor old serial own early,
                  apart₂ descriptor member serial own early]
    · exact fun opened' => absurd opened' opened

theorem executeCalls_inherits (calls : List CommandCall) :
    ∀ (index : Nat) (info : Option InternalExitInfo) (job : Job),
      Moves (Inheriting command bound)
        (executeCalls environment command index info job calls) := by
  induction calls with
  | nil => exact fun _ _ _ => .pure _
  | cons call rest ih =>
      intro index info job
      refine (executeSingleCommand_inherits call job).bind fun result => ?_
      obtain ⟨launched, job'⟩ := result
      cases launched with
      | none =>
          have killed : Moves (Inheriting command bound)
              (liftJob (kill environment (-job'.pgid) sigkill)) := fun start =>
            have sheds : Sheds [] start _ :=
              Sheds.of_silent (kill_silent environment (-job'.pgid) sigkill) start
            sheds.inheriting (by simp) (by simp)
          dsimp only
          split
          · exact killed.bind fun _ => .pure _
          · exact .pure _
      | some launched => exact ih _ _ _

end Launching

/-! ## Executing a command -/

section Executing

variable {environment : Environment} {command : Command} {bound : Nat} {start : Shell}

/-- Once its calls have been launched, a command closes its pipes. -/
theorem executeExternalCommand_sheds (environment : Environment) (command : Command)
    (start : Shell) :
    (∃ halt finish, executeAsJob environment command (setupJob command) start =
        .error halt finish ∧ executeExternalCommand environment command start =
          .error halt finish) ∨
      ∃ result launched, executeAsJob environment command (setupJob command) start =
          .ok result launched ∧
        Ends (Sheds (pipeNumbers command.openPipes) launched) start
          (executeExternalCommand environment command) := by
  cases ran : executeAsJob environment command (setupJob command) start with
  | error halt finish => exact .inl ⟨halt, finish, rfl, bind_eq_error.mpr (.inl ran)⟩
  | ok result launched =>
      refine .inr ⟨result, launched, rfl, ?_⟩
      obtain ⟨info, job⟩ := result
      rw [Ends, executeExternalCommand, bind_of_ok ran]
      change Ends (Sheds (pipeNumbers command.openPipes) launched) launched _
      have kept : ∀ info job, Moves (Sheds (pipeNumbers command.openPipes))
          (liftJob (keepJob info job)) := fun info job =>
        Sheds.of_course
          ((addJob_moves trivial).bind fun _ =>
            (Course.ofQuiet (printJob_moves _ _)).bind fun _ => .pure _)
      refine Ends.seq (Sheds.closePipes _ launched) fun _ closed _ => ?_
      cases info with
      | none => exact Moves.pure _ _
      | some info =>
          dsimp only
          split
          · exact kept info job closed
          · refine Ends.seq (Sheds.of_course
              (Course.ofQuiet (blockingWaitForJob_moves environment job)) closed)
              fun waited state _ => ?_
            refine Ends.seq (Sheds.of_silent (tcsetpgrp_silent environment _) state)
              fun given _ _ => ?_
            split
            · exact Moves.throw _ _
            · split
              · exact Moves.pure _ _
              · split
                · exact Moves.pure _ _
                · exact kept info waited.2 _

/-- The number is an end of a pipe of the command, or that of another descriptor of its
calls. -/
def Command.Claims (command : Command) (number : Int) : Prop :=
  number ∈ pipeNumbers command.openPipes ∨
    2 < number ∧ number ∈ command.commandCalls.flatMap CommandCall.fds

/-- No pipe of the command is a standard descriptor, and there is none for a single call. -/
structure Command.Sound (command : Command) : Prop where
  above : ∀ number ∈ pipeNumbers command.openPipes, 2 < number
  single : ∀ call, command.commandCalls = [call] → command.openPipes = []

/-- The children that are recorded have inherited their ends from the shell. -/
def Bequeaths (command : Command) (bound : Nat) (start finish : Shell) : Prop :=
  Recorded (Event.Inherits command bound start.parser.kernel) start.control.trace
    finish.control.trace

theorem runCommand_inherits (opened : Opened bound start.parser.kernel) (sound : command.Sound) :
    Ends (Bequeaths command bound start) start (runCommand environment command) ∧
      ∀ result finish, runCommand environment command start = .ok result finish →
        Opened bound finish.parser.kernel ∧
        ∀ descriptor serial, descriptor.IsEnd serial → serial < bound →
          (descriptor ∈ finish.parser.kernel.descriptors ↔
            descriptor ∈ start.parser.kernel.descriptors ∧
              descriptor.number ∉ pipeNumbers command.openPipes) := by
  rcases runCommand_eq environment command with ⟨call, one, _, same⟩ | ⟨_, same⟩
  · rw [same]
    have moves : Moves (Inheriting command bound) (do
        let exitCode ← executeInternalCommand environment call
        return newCommandResult exitCode) :=
      (executeInternalCommand_inherits call).bind fun _ => .pure _
    refine ⟨(moves start opened).recorded, fun result finish ran => ?_⟩
    obtain ⟨opened', same', _⟩ := (moves start).of_ok ran opened
    refine ⟨opened', fun descriptor serial own early => ?_⟩
    rw [same' descriptor serial own early, sound.single call one]
    simp [pipeNumbers]
  · rw [same]
    have launches : Moves (Inheriting command bound)
        (executeAsJob environment command (setupJob command)) :=
      executeCalls_inherits command.commandCalls 0 none (setupJob command)
    rcases executeExternalCommand_sheds environment command start with
      ⟨halt, finish, launch, ran⟩ | ⟨result, launched, launch, sheds⟩
    · rw [Ends, ran]
      refine ⟨((launches start).of_error launch opened).recorded, fun _ _ other => ?_⟩
      cases other
    · obtain ⟨opened', same', recorded⟩ := (launches start).of_ok launch opened
      refine ⟨trans_of (Recorded _) recorded
        (sheds.recorded.mono fun _ => Event.Childless.inherits), fun result finish ran => ?_⟩
      have sheds := sheds.of_ok ran
      obtain ⟨kernel, closes⟩ := executeExternalCommand_closed ran
      refine ⟨⟨sheds.valid sound.above opened'.valid, sheds.pipes ▸ opened'.pipes⟩, ?_⟩
      intro descriptor serial own early
      rw [← same' descriptor serial own early]
      constructor
      · intro member
        refine ⟨sheds.fewer descriptor member, ?_⟩
        rw [closes] at member
        exact (mem_closePipes.mp member).2
      · exact fun both => sheds.rest descriptor both.1 both.2

/-- After a command the ends of the first pipes are open that it does not claim. -/
structure Executed (command : Command) (bound : Nat) (start finish : Shell) : Prop where
  opened : Opened bound finish.parser.kernel
  ends : ∀ descriptor serial, descriptor.IsEnd serial → serial < bound →
    (descriptor ∈ finish.parser.kernel.descriptors ↔
      descriptor ∈ start.parser.kernel.descriptors ∧ ¬ command.Claims descriptor.number)

theorem executeCommand_bequeaths (opened : Opened bound start.parser.kernel)
    (sound : command.Sound) :
    Ends (Bequeaths command bound start) start (executeCommand environment command) := by
  have runs := (@runCommand_inherits environment command bound start opened sound).1
  refine Ends.bind (fun _ _ ran => runs.of_error ran) fun result state ran => ?_
  have told : Recorded (Event.Inherits command bound start.parser.kernel) state.control.trace
      (state.control.trace ++ [.result result.exitCode]) := .single _ trivial
  exact trans_of (Recorded _) (runs.of_ok ran) told

theorem executeCommand_executed (opened : Opened bound start.parser.kernel)
    (sound : command.Sound) {result : CommandResult} {finish : Shell}
    (ran : executeCommand environment command start = .ok result finish) :
    Executed command bound start finish := by
  obtain ⟨result', state, runs, ran⟩ := bind_eq_ok.mp ran
  obtain ⟨opened', ends⟩ := (runCommand_inherits opened sound).2 result' state runs
  cases ran
  refine ⟨⟨opened'.valid.closeUnusedFileDescriptors _ _, ?_⟩, fun descriptor serial own early => ?_⟩
  · exact (pipes_closeUnusedFileDescriptors _ _ _).symm ▸ opened'.pipes
  · refine mem_closeUnusedFileDescriptors.trans ?_
    rw [ends descriptor serial own early, Command.Claims]
    tauto

end Executing

end Jsh
