import Jsh.Deeds
import Jsh.Streams

/-!
# Streams of a built-in

A built-in is executed in the shell, which leaves its own standard descriptors as they are.
The descriptors its call prints on refer to what the streams of its stage are to refer to:
the file of the last redirection, else the pipe to the neighbouring stage, else the stream
of the shell.
-/

set_option autoImplicit false

namespace Jsh

open Library

/-! ## The calls of a command -/

/-- The job after a call has been launched. -/
def Job.launching (job : Job) (index : Nat) (call : CommandCall) (launched : InternalExitInfo) :
    Job :=
  if launched.pid ≠ uninitializedPid then
    { job with subjobs := job.subjobs.set index (some (newSubjob call launched.pid .running)) }
  else job

/-- The launch of calls, from one with this index on, comes to one of them in this state. -/
inductive Arrives (environment : Environment) (command : Command) :
    Nat → Job → List CommandCall → Shell → CommandCall → Shell → Prop
  | now {index : Nat} {job : Job} {call : CommandCall} {rest : List CommandCall} {start : Shell} :
      Arrives environment command index job (call :: rest) start call start
  | later {index : Nat} {job job' : Job} {first call : CommandCall} {rest : List CommandCall}
      {launched : InternalExitInfo} {start middle here : Shell} :
      executeSingleCommand environment command first job start =
        .ok (some launched, job') middle →
      Arrives environment command (index + 1) (job'.launching index first launched) rest middle
        call here →
      Arrives environment command index job (first :: rest) start call here

/-- The execution of a command comes to one of its calls in this state. -/
inductive CallComes (environment : Environment) (command : Command) (start : Shell) :
    CommandCall → Shell → Prop
  | alone {call : CommandCall} : command.commandCalls = [call] → isInternalCommand call = true →
      CallComes environment command start call start
  | launched {call : CommandCall} {here : Shell} :
      (∀ call, isInternalCommand call = true → command.commandCalls ≠ [call]) →
      Arrives environment command 0 (setupJob command) command.commandCalls start call here →
      CallComes environment command start call here

section Calls

variable {environment : Environment} {command : Command} {call : CommandCall} {start here : Shell}

theorem Arrives.mem {index : Nat} {job : Job} {calls : List CommandCall}
    (arrives : Arrives environment command index job calls start call here) : call ∈ calls := by
  induction arrives with
  | now => exact .head _
  | later _ _ ih => exact .tail _ ih

theorem CallComes.mem (comes : CallComes environment command start call here) :
    call ∈ command.commandCalls := by
  cases comes with
  | alone one _ => exact one ▸ .head _
  | launched _ arrives => exact arrives.mem

/-- What the shell needs for the command is open at each of its calls. -/
theorem Arrives.based {base : Descriptor → Prop} {index : Nat} {job : Job}
    {calls : List CommandCall}
    (arrives : Arrives environment command index job calls start call here)
    (listed : calls ⊆ command.commandCalls) (based : Based base start.parser.kernel) :
    Based base here.parser.kernel := by
  induction arrives with
  | now => exact based
  | later ran _ ih =>
      have received := (executeSingleCommand_receives (listed (.head _)) _ _).of_ok ran based
      exact ih (fun _ inside => listed (.tail _ inside)) received.1

theorem CallComes.based {base : Descriptor → Prop}
    (comes : CallComes environment command start call here)
    (based : Based base start.parser.kernel) : Based base here.parser.kernel := by
  cases comes with
  | alone => exact based
  | launched _ arrives => exact arrives.based (fun _ inside => inside) based

end Calls

/-! ## Every call is come to -/

/-- The event is not that of a call. -/
def Event.Uncalled : Event → Prop
  | .call _ => False
  | _ => True

theorem Deeds.uncalled {fds : List Int} {named : Int → Prop} {events : List Event}
    (deeds : Deeds fds named events) : ∀ event ∈ events, event.Uncalled := by
  induction deeds with
  | none => exact fun _ member => by cases member
  | inward inward _ ih =>
      refine List.forall_mem_cons.mpr ⟨?_, ih⟩
      cases ‹Event› <;> trivial
  | print _ _ _ ih => exact List.forall_mem_cons.mpr ⟨trivial, ih⟩
  | probe _ _ ih => exact List.forall_mem_cons.mpr ⟨trivial, ih⟩
  | job _ _ _ ih => exact List.forall_mem_cons.mpr ⟨trivial, List.forall_mem_cons.mpr ⟨trivial, ih⟩⟩
  | process _ _ _ ih => exact List.forall_mem_cons.mpr ⟨trivial, ih⟩

/-- No call is recorded. -/
def CallsNothing (start finish : Shell) : Prop :=
  Recorded Event.Uncalled start.control.trace finish.control.trace

instance : Std.Refl CallsNothing where
  refl _ := refl_of (Recorded _) _

instance : IsTrans Shell CallsNothing where
  trans _ _ _ before after := trans_of (Recorded _) before after

section CallsNothing

variable {environment : Environment}

theorem liftJob_callsNothing {α : Type} {action : JobAction α} {fds : List Int}
    (acts : Moves (Acts fds fun _ => True) action) : Moves CallsNothing (liftJob action) := by
  refine (liftJob_onControl acts).mono fun start finish acted => ?_
  obtain ⟨events, same, deeds⟩ := acted
  exact ⟨events, same, deeds.uncalled⟩

theorem outcome_callsNothing {α : Type} (outcomes : Nat → α) :
    Moves CallsNothing (liftJob (outcome outcomes)) :=
  liftJob_callsNothing (@outcome_acts [] _ _ outcomes)

theorem kill_callsNothing (target signal : Int) :
    Moves CallsNothing (liftJob (kill environment target signal)) :=
  liftJob_callsNothing (@kill_acts [] _ _ _ trivial signal)

theorem modifyKernel_callsNothing (update : Kernel → Kernel) :
    Moves CallsNothing (modifyKernel update) :=
  .modify fun _ => refl_of (Recorded _) _

theorem pipe_callsNothing : Moves CallsNothing (pipe environment) :=
  .modifyGet fun _ => refl_of (Recorded _) _

theorem CallsNothing.forkSteps (environment : Environment) :
    ForkSteps environment CallsNothing where
  outcome := outcome_callsNothing
  kill := kill_callsNothing
  child _ _ := .single _ trivial
  close _ := modifyKernel_callsNothing _

end CallsNothing

/-- An event that is no call, or that of a call the execution of the command comes to. -/
def Event.CalledBy (environment : Environment) (command : Command) (start : Shell) : Event → Prop
  | .call called => ∃ here, CallComes environment command start called here
  | _ => True

/-- An event that is no call, or that of a call the launch comes to. -/
def Event.Arrived (environment : Environment) (command : Command) (index : Nat) (job : Job)
    (calls : List CommandCall) (start : Shell) : Event → Prop
  | .call called => ∃ here, Arrives environment command index job calls start called here
  | _ => True

theorem Event.Uncalled.arrived {environment : Environment} {command : Command} {index : Nat}
    {job : Job} {calls : List CommandCall} {start : Shell} {event : Event}
    (uncalled : event.Uncalled) : event.Arrived environment command index job calls start := by
  cases event <;> trivial

theorem Event.Uncalled.calledBy {environment : Environment} {command : Command} {start : Shell}
    {event : Event} (uncalled : event.Uncalled) : event.CalledBy environment command start := by
  cases event <;> trivial

section Coverage

variable {environment : Environment} {command : Command}

/-- What calls nothing once a call is recorded records no other call. -/
theorem recordsCall_of_callsNothing {α : Type} {action : Unit → ShellAction α}
    (moves : Moves CallsNothing (action ())) (call : CommandCall) (start : Shell) :
    Ends (fun finish => ∃ events,
        finish.control.trace = start.control.trace ++ .call call :: events ∧
          ∀ event ∈ events, event.Uncalled) start
      (liftJob (record (.call call)) >>= action) := by
  obtain ⟨events, same, uncalled⟩ := moves (start.calling call)
  exact ⟨events, same.trans (List.append_assoc _ _ _), uncalled⟩

/-- The only call that is recorded is the one that is executed. -/
theorem executeSingleCommand_calls (call : CommandCall) (job : Job) (start : Shell) :
    Ends (fun finish => ∃ events,
        finish.control.trace = start.control.trace ++ .call call :: events ∧
          ∀ event ∈ events, event.Uncalled) start
      (executeSingleCommand environment command call job) := by
  unfold executeSingleCommand
  split
  · have performs := executeInternalCommand_performs environment call start
    refine Ends.bind (fun _ _ ran => ?_) fun _ _ ran => ?_
    · obtain ⟨events, same, deeds⟩ := performs.of_error ran
      exact ⟨events, same, deeds.uncalled⟩
    · obtain ⟨events, same, deeds⟩ := performs.of_ok ran
      exact ⟨events, same, deeds.uncalled⟩
  · refine recordsCall_of_callsNothing ?_ call start
    refine pipe_callsNothing.bind fun first => ?_
    cases first with
    | none => exact .pure _
    | some fd =>
        refine pipe_callsNothing.bind fun second => ?_
        cases second with
        | none => exact .pure _
        | some fd2 => exact (CallsNothing.forkSteps environment).forkCall command call job fd fd2

theorem executeCalls_arrive (calls : List CommandCall) :
    ∀ (index : Nat) (info : Option InternalExitInfo) (job : Job) (start : Shell),
      Ends (fun finish => Recorded (Event.Arrived environment command index job calls start)
        start.control.trace finish.control.trace) start
        (executeCalls environment command index info job calls) := by
  induction calls with
  | nil => exact fun _ _ _ _ => refl_of (Recorded _) _
  | cons call rest ih =>
      intro index info job start
      have single := @executeSingleCommand_calls environment command call job start
      have first : Ends (fun finish =>
          Recorded (Event.Arrived environment command index job (call :: rest) start)
            start.control.trace finish.control.trace) start
          (executeSingleCommand environment command call job) := by
        obtain ⟨events, same, uncalled⟩ := single
        refine ⟨.call call :: events, same, List.forall_mem_cons.mpr ⟨⟨start, .now⟩, ?_⟩⟩
        exact fun event member => (uncalled event member).arrived
      refine Ends.bind (fun _ _ ran => first.of_error ran) fun result middle ran => ?_
      obtain ⟨launched, job'⟩ := result
      have before := first.of_ok ran
      cases launched with
      | none =>
          have killed : Moves CallsNothing (do
              if job'.pgid ≠ 0 then
                let _ ← liftJob (kill environment (-job'.pgid) sigkill)
              return (none, job') : ShellAction (Option InternalExitInfo × Job)) := by
            split
            · exact (kill_callsNothing _ _).bind fun _ => .pure _
            · exact .pure _
          exact trans_of (Recorded _) before ((killed middle).mono fun _ uncalled =>
            uncalled.arrived)
      | some launched =>
          have later := ih (index + 1) (if index = 0 then some launched else info)
            (job'.launching index call launched) middle
          refine trans_of (Recorded _) before (later.mono fun event arrived => ?_)
          cases event with
          | call called =>
              obtain ⟨here, arrives⟩ := arrived
              exact ⟨here, .later ran arrives⟩
          | _ => trivial

theorem executeExternalCommand_calls
    (several : ∀ call, isInternalCommand call = true → command.commandCalls ≠ [call])
    (start : Shell) :
    Ends (fun finish => Recorded (Event.CalledBy environment command start)
      start.control.trace finish.control.trace) start
      (executeExternalCommand environment command) := by
  have launch : Ends (fun finish => Recorded (Event.CalledBy environment command start)
      start.control.trace finish.control.trace) start
      (executeAsJob environment command (setupJob command)) := by
    have arrive := @executeCalls_arrive environment command command.commandCalls 0 none
      (setupJob command) start
    refine Recorded.mono arrive fun event arrived => ?_
    cases event with
    | call called =>
        obtain ⟨here, arrives⟩ := arrived
        exact ⟨here, .launched several arrives⟩
    | _ => trivial
  have kept : ∀ info job, Moves CallsNothing (liftJob (keepJob info job)) := fun info job =>
    liftJob_callsNothing (@keepJob_acts [stderrFileno] _ (.head _) info job)
  refine Ends.bind (fun _ _ ran => launch.of_error ran) fun result launched ran => ?_
  obtain ⟨info, job⟩ := result
  refine trans_of (Recorded _) (launch.of_ok ran) <|
    Recorded.mono (?_ : CallsNothing launched _) fun _ uncalled => uncalled.calledBy
  change Ends (CallsNothing launched) launched _
  refine Ends.seq (modifyKernel_callsNothing _ launched) fun _ closed _ => ?_
  cases info with
  | none => exact Moves.pure _ _
  | some info =>
      dsimp only
      split
      · exact kept info job closed
      · refine Ends.seq (liftJob_callsNothing (@blockingWaitForJob_acts [] _ _ job) closed)
          fun waited state _ => ?_
        refine Ends.seq (liftJob_callsNothing (@tcsetpgrp_acts [] _ _ _) state) fun given _ _ => ?_
        split
        · exact Moves.throw _ _
        · split
          · exact Moves.pure _ _
          · split
            · exact Moves.pure _ _
            · exact kept info waited.2 _

/-- Every call that is recorded is one the execution of the command comes to. -/
theorem executeCommand_calls (start : Shell) :
    Ends (fun finish => Recorded (Event.CalledBy environment command start)
      start.control.trace finish.control.trace) start (executeCommand environment command) := by
  have ran : Ends (fun finish => Recorded (Event.CalledBy environment command start)
      start.control.trace finish.control.trace) start (runCommand environment command) := by
    rcases runCommand_eq environment command with ⟨call, one, internal, same⟩ | ⟨several, same⟩
    · rw [same]
      have performs := executeInternalCommand_performs environment call start
      have told : ∀ finish, Performs call start.control finish →
          Recorded (Event.CalledBy environment command start) start.control.trace finish.trace := by
        intro finish performed
        obtain ⟨events, same, deeds⟩ := performed
        refine ⟨.call call :: events, same, List.forall_mem_cons.mpr ⟨?_, ?_⟩⟩
        · exact ⟨start, .alone one internal⟩
        · exact fun event member => (deeds.uncalled event member).calledBy
      exact Ends.bind (fun _ _ ran => told _ (performs.of_error ran)) fun _ _ ran =>
        told _ (performs.of_ok ran)
    · rw [same]
      exact executeExternalCommand_calls several start
  refine Ends.bind (fun _ _ failed => ran.of_error failed) fun result state returned => ?_
  refine trans_of (Recorded _) (ran.of_ok returned) ?_
  exact .single _ trivial

end Coverage

/-! ## The calls of a line -/

/-- An event that is no call, or that of a call of one of the commands. -/
def Event.CalledIn (environment : Environment) (entries : List (Option Command)) (start : Shell) :
    Event → Prop
  | .call called => ∃ index command state here,
      Comes environment entries start index command state ∧
        CallComes environment command state called here
  | _ => True

theorem executeCommands_calls (environment : Environment) (entries : List (Option Command)) :
    ∀ start : Shell, Ends (fun finish => Recorded (Event.CalledIn environment entries start)
      start.control.trace finish.control.trace) start (executeCommands environment entries) := by
  induction entries with
  | nil => exact fun _ => refl_of (Recorded _) _
  | cons entry later ih =>
      intro start
      cases entry with
      | none => exact refl_of (Recorded _) _
      | some command =>
          let begun := start.recording (.command command later)
          have named : Recorded (Event.CalledIn environment (some command :: later) start)
              start.control.trace begun.control.trace := .single _ trivial
          have called : Ends (fun finish =>
              Recorded (Event.CalledIn environment (some command :: later) start)
                start.control.trace finish.control.trace) begun
              (executeCommand environment command) := by
            refine trans_of (Recorded _) named (Recorded.mono (executeCommand_calls begun) ?_)
            intro event told
            cases event with
            | call called =>
                obtain ⟨here, comes⟩ := told
                exact ⟨0, command, begun, here, .now, comes⟩
            | _ => trivial
          refine Ends.bind (fun _ _ ran => ?_) fun _ state ran => ?_
          · cases ran
          · cases ran
            refine Ends.bind (fun _ _ ran => called.of_error ran) fun result middle ran => ?_
            refine trans_of (Recorded _) (called.of_ok ran) (Recorded.mono (ih middle) ?_)
            intro event told
            cases event with
            | call called =>
                obtain ⟨index, other, state, here, comes, arrives⟩ := told
                exact ⟨index + 1, other, state, here, .later ran comes, arrives⟩
            | _ => trivial

/-! ## The streams of a built-in -/

/-- The descriptors of the call of a stage refer to what the streams of the stage are to
refer to. -/
structure CommandCall.Wired (call : CommandCall) (kernel : Kernel)
    (own : Stream → Option OpenFile) (opens : List (CString × OpenMode)) (stage : WiredStage) :
    Prop where
  named : call = stage.call
  streams : ∀ stream, fileOf kernel.descriptors (call.fd stream) = stage.file own stream
  redirections : ∀ stream descriptor, stage.items.lastRedirection stream = some descriptor →
    ∃ serial, descriptor.file = .file serial ∧ opens[serial]? = stage.items.lastRequest stream

theorem LineCommand.wired {outcomes : FileOutcomes} {line : CString} {start parsed : ParserState}
    {index : Nat} {command : Command} {segment : CString} {tree : Pipeline Labels.wired}
    {stage : WiredStage} {kernel : Kernel} (valid : start.kernel.Valid)
    (made : LineCommand outcomes line start parsed index command segment tree)
    (based : Based (Needed parsed.kernel [command]) kernel)
    (member : stage ∈ tree.wiredStages segment none none) :
    stage.call.Wired kernel start.kernel.streams parsed.kernel.opens stage := by
  refine ⟨rfl, fun stream => ?_, fun stream descriptor => made.redirected member⟩
  obtain ⟨descriptor, needed, number, _, _, file⟩ := made.exists_source valid member stream
  rw [← number, file]
  exact fileOf_of_mem based.valid.distinct (based.opened descriptor needed)

/-- Every built-in that is executed while a line is executed prints on the streams of its
call, or announces a job on the standard error of the shell. If no freed call is read while
the line is parsed, the call is a stage of its command, with the streams of that stage. -/
theorem line_builtins_streams {environment : Environment} {line : CString} {start parsed : Shell}
    {commands : List (Option Command)} (valid : start.parser.kernel.Valid)
    (read : readLine environment line start = .ok (some commands) parsed) :
    Ends (fun finish => Recorded (Event.CalledIn environment commands parsed)
        parsed.control.trace finish.control.trace) parsed
        (executeCommands environment commands) ∧
      ∀ index command state call here, Comes environment commands parsed index command state →
        CallComes environment command state call here →
        Ends (fun finish => Performs call here.control finish.control) here
            (executeInternalCommand environment call) ∧
          (LineIntact environment.files line start.parser →
            ∃ segment tree, commands[index]? = some (some command) ∧
              LineCommand environment.files line start.parser parsed.parser index command segment
                tree ∧
              ∃ stage ∈ tree.wiredStages segment none none,
                call.Wired here.parser.kernel start.parser.kernel.streams
                  parsed.parser.kernel.opens stage) := by
  refine ⟨executeCommands_calls environment commands parsed, ?_⟩
  intro index command state call here comes arrives
  refine ⟨executeInternalCommand_performs environment call here, fun intact => ?_⟩
  obtain ⟨segment, tree, entry, made, based⟩ := comes.made valid intact read
  have listed : call ∈ (tree.wiredStages segment none none).map WiredStage.call := by
    rw [tree.map_call_wiredStages]
    exact made.read.perm.mem_iff.mp arrives.mem
  obtain ⟨stage, member, rfl⟩ := List.mem_map.mp listed
  exact ⟨segment, tree, entry, made, stage, member, made.wired valid (arrives.based based) member⟩

/-- `pwd` prints into its file. -/
theorem redirected_pwd_streams :
    ∃ command later parsed call,
      readLine .exiting "pwd 2> e > f".toList (initInternals "/".toList) =
        .ok (some (some command :: later)) parsed ∧
      call.name = "pwd".toList ∧
      CallComes .exiting command (parsed.recording (.command command later)) call
        (parsed.recording (.command command later)) ∧
      fileOf parsed.parser.kernel.descriptors call.stdout = some (.file 1) ∧
      ∃ (segment : CString) (tree : Pipeline Labels.wired),
        ∃ stage ∈ tree.wiredStages segment none none,
          call.Wired parsed.parser.kernel startedShell.kernel.streams parsed.parser.kernel.opens
            stage := by
  have valid : (initInternals "/".toList).parser.kernel.Valid := valid_startedShell
  have checked : returns (fun commands (parsed : Shell) => commands.any fun commands =>
      commands.head?.any fun entry => entry.any fun command => command.commandCalls.any fun call =>
        decide (command.commandCalls = [call] ∧ call.name = "pwd".toList ∧
          fileOf parsed.parser.kernel.descriptors call.stdout = some (.file 1)))
      (readLine .exiting "pwd 2> e > f".toList (initInternals "/".toList)) = true := by
    decide +kernel
  obtain ⟨commands, parsed, read, some⟩ := exists_of_returns checked
  obtain ⟨entries, same, some⟩ := (Option.any_eq_true _ _).mp some
  obtain ⟨entry, first, some⟩ := (Option.any_eq_true _ _).mp some
  obtain ⟨command, present, some⟩ := (Option.any_eq_true _ _).mp some
  obtain ⟨call, _, found⟩ := List.any_eq_true.mp some
  obtain ⟨one, name, file⟩ := of_decide_eq_true found
  obtain ⟨later, shape⟩ := List.head?_eq_some_iff.mp first
  rw [same, shape, present] at read
  have internal : isInternalCommand call = true := by
    rw [isInternalCommand, name]
    decide
  have comes : CallComes .exiting command (parsed.recording (.command command later)) call
      (parsed.recording (.command command later)) := .alone one internal
  have intact : LineIntact Environment.exiting.files "pwd 2> e > f".toList startedShell :=
    lineIntact_of_lastExitCode (by decide +kernel)
  obtain ⟨segment, tree, _, _, stage, member, wired⟩ :=
    ((line_builtins_streams valid read).2 0 command _ call _ .now comes).2 intact
  exact ⟨command, later, parsed, call, read, name, comes, file, segment, tree, stage, member, wired⟩

end Jsh
