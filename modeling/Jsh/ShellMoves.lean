import Mathlib.Data.List.ReduceOption
import Jsh.JobMoves
import Jsh.Internals

/-!
# What the execution of a command does to the shell

Every function that executes a call or a command moves the state of the shell by
steps of a few kinds.
-/

set_option autoImplicit false

namespace Jsh

open Library

/-! ## Built-in commands -/

/-- Job control that adds no job, with at most a change of directory. -/
structure Calm (start finish : Shell) : Prop where
  parser : finish.parser = start.parser
  course : Course (fun _ => False) start.control finish.control
  lastExitCode : finish.lastExitCode = start.lastExitCode
  shouldExit : finish.shouldExit = start.shouldExit

instance : Std.Refl Calm where
  refl _ := ⟨rfl, .refl, rfl, rfl⟩

instance : IsTrans Shell Calm where
  trans _ _ _ before after :=
    ⟨after.parser.trans before.parser, before.course.trans after.course,
      after.lastExitCode.trans before.lastExitCode, after.shouldExit.trans before.shouldExit⟩

/-- A function of job control moves the shell as it moves its own state. -/
theorem liftJob_ends {α : Type} {action : JobAction α} {property : Shell → Prop} {start : Shell}
    (ends : Ends (fun control => property { start with control }) start.control action) :
    Ends property start (liftJob action) := by
  unfold Ends liftJob at *
  cases ran : action start.control <;> simpa [ran, finalState] using ends

theorem liftJob_eq_ok {α : Type} {action : JobAction α} {start finish : Shell} {value : α} :
    liftJob action start = .ok value finish ↔
      ∃ control, action start.control = .ok value control ∧ finish = { start with control } := by
  unfold liftJob
  cases action start.control <;> simp [eq_comm]

/-- The state after a system call without effect on it. -/
def Shell.called (shell : Shell) : Shell :=
  { shell with control := { shell.control with calls := shell.control.calls + 1 } }

/-- The outcome of the next system call, in the shell. -/
theorem liftJob_outcome {α : Type} (outcomes : Nat → α) (start : Shell) :
    liftJob (outcome outcomes) start = .ok (outcomes start.control.calls) start.called := rfl

theorem getcwd_run (environment : Environment) (start : Shell) :
    getcwd environment start =
      .ok (match environment.getcwdError start.control.calls with
          | some text => .error text
          | none => .ok start.cwd) start.called := by
  rw [getcwd, bind_of_ok (liftJob_outcome environment.getcwdError start)]
  cases environment.getcwdError start.control.calls <;> rfl

theorem getCurrentWd_run {environment : Environment} {shell : Shell}
    (known : environment.getcwdError shell.control.calls = none) :
    getCurrentWd environment shell = .ok (shell.cwd, true) shell.called := by
  rw [getCurrentWd, bind_of_ok (getcwd_run environment shell), known]
  rfl

theorem getCurrentWd_failed {environment : Environment} {shell : Shell} {text : CString}
    (fails : environment.getcwdError shell.control.calls = some text) :
    getCurrentWd environment shell = .ok ([], false) shell.called := by
  rw [getCurrentWd, bind_of_ok (getcwd_run environment shell), fails]
  rfl

/-- What a relation between the states of the shell says about job control. -/
def Lifted (relation : Shell → Shell → Prop) (start finish : Control) : Prop :=
  ∀ shell : Shell, shell.control = start → relation shell { shell with control := finish }

instance {relation : Shell → Shell → Prop} [Std.Refl relation] : Std.Refl (Lifted relation) where
  refl control shell same := by
    subst same
    exact refl_of relation shell

instance {relation : Shell → Shell → Prop} [IsTrans Shell relation] :
    IsTrans Control (Lifted relation) where
  trans _ _ _ before after shell same :=
    trans_of relation (before shell same) (after _ rfl)

theorem liftJob_lifted {α : Type} {relation : Shell → Shell → Prop} {action : JobAction α}
    (moves : Moves (Lifted relation) action) : Moves relation (liftJob action) :=
  fun start => liftJob_ends (moves start.control start rfl)

/-- A relation that the built-ins other than `exit` keep to. -/
structure ShellSteps (environment : Environment) (relation : Shell → Shell → Prop) : Prop where
  jobs : JobSteps environment (Lifted relation)
  moved : ∀ (shell : Shell) (cwd lwd : CString), relation shell { shell with cwd, lwd }

/-- What a relation between states of job control says about the shell. -/
def OnControl (relation : Control → Control → Prop) (start finish : Shell) : Prop :=
  relation start.control finish.control

section OnControl

variable {relation : Control → Control → Prop}

instance [Std.Refl relation] : Std.Refl (OnControl relation) where
  refl shell := refl_of relation shell.control

instance [IsTrans Control relation] : IsTrans Shell (OnControl relation) where
  trans _ _ _ before after := trans_of relation before after

theorem OnControl.lift {start finish : Control} (related : relation start finish) :
    Lifted (OnControl relation) start finish := by
  intro shell same
  subst same
  exact related

theorem liftJob_onControl {α : Type} {action : JobAction α} (moves : Moves relation action) :
    Moves (OnControl relation) (liftJob action) :=
  fun start => liftJob_ends (moves start.control)

theorem JobSteps.onControl [Std.Refl relation] {environment : Environment}
    (steps : JobSteps environment relation) : ShellSteps environment (OnControl relation) where
  jobs := steps.mono fun _ _ => OnControl.lift
  moved shell _ _ := refl_of relation shell.control

end OnControl

theorem ShellSteps.mono {environment : Environment} {relation weaker : Shell → Shell → Prop}
    (steps : ShellSteps environment relation)
    (implies : ∀ start finish, relation start finish → weaker start finish) :
    ShellSteps environment weaker where
  jobs := steps.jobs.mono fun _ _ lifted shell same => implies _ _ (lifted shell same)
  moved shell cwd lwd := implies _ _ (steps.moved shell cwd lwd)

theorem isValidPath_silent (environment : Environment) (path : CString) (callStderr : Int) :
    Moves Silently (isValidPath environment path callStderr) := by
  refine (outcome_silent _).bind fun answer => ?_
  cases answer with
  | file | directory => exact .pure _
  | noAccess | missing | failed _ => exact (dprintf_silent _ _).bind fun _ => .pure _

theorem isValidTargetDir_silent (environment : Environment) (target : CString) (callStderr : Int) :
    Moves Silently (isValidTargetDir environment target callStderr) := by
  refine (isValidPath_silent environment target callStderr).bind fun valid => ?_
  split
  · exact .pure _
  · exact (dprintf_silent _ _).bind fun _ => .pure _
  · exact .pure _

theorem killAnswer_silent (callStderr sig : Int) (error : Option KillError) :
    Moves Silently (killAnswer callStderr sig error) := by
  unfold killAnswer
  split
  · exact .pure _
  · exact (dprintf_silent _ _).bind fun _ => .pure _
  · exact (dprintf_silent _ _).bind fun _ => .pure _
  · exact (dprintf_silent _ _).bind fun _ => .pure _

namespace JobSteps

variable {environment : Environment} {relation : Control → Control → Prop} [Std.Refl relation]
  [IsTrans Control relation] (steps : JobSteps environment relation)

include steps

theorem killTarget (sig : Int) (identifier : CString) (callStderr : Int) :
    Moves relation (killTarget environment sig identifier callStderr) := by
  have answered : ∀ error, Moves relation (do
      let answer ← killAnswer callStderr sig error
      return exitCodeOf answer) := fun error =>
    steps.ofSilent ((killAnswer_silent callStderr sig error).bind fun _ => .pure _)
  unfold Jsh.killTarget
  split
  · refine (steps.ofSilent (getJob_silent identifier callStderr)).bind fun found => ?_
    cases found with
    | none => exact .pure _
    | some index =>
        intro start
        dsimp only
        rw [ends_get]
        split
        · exact Moves.throw _ _
        · next job found => exact Ends.seq (steps.signalJob sig found) fun _ _ _ => answered _ _
  · refine (steps.ofSilent (parseIntmaxT_silent identifier callStderr)).bind fun parsed => ?_
    cases parsed with
    | none => exact .pure _
    | some value => exact (steps.ofSilent (kill_silent environment _ sig)).bind fun _ => answered _

theorem killCommand (call : CommandCall) : Moves relation (killCommand environment call) := by
  unfold Jsh.killCommand
  split
  · exact steps.ofSilent
      ((dprintf_silent _ _).bind fun _ => (dprintf_silent _ _).bind fun _ => .pure _)
  · dsimp only
    split
    · refine (steps.ofSilent (parseIntmaxT_silent _ call.stderr)).bind fun parsed => ?_
      cases parsed with
      | none => exact .pure _
      | some value =>
          dsimp only
          split
          · exact steps.ofSilent ((dprintf_silent _ _).bind fun _ => .pure _)
          · exact steps.killTarget _ _ _
    · exact steps.killTarget _ _ _

theorem jobCommand (name : CString) {action : Nat → JobAction Bool}
    (moves : ∀ index, Moves relation (action index)) (call : CommandCall) :
    Moves relation (jobCommand name action call) := by
  unfold Jsh.jobCommand
  split
  · exact steps.ofSilent ((dprintf_silent _ _).bind fun _ => .pure _)
  · split
    · exact steps.ofSilent ((dprintf_silent _ _).bind fun _ => .pure _)
    · refine (steps.ofSilent (getJob_silent _ call.stderr)).bind fun found => ?_
      cases found with
      | none => exact .pure _
      | some index => exact (moves index).bind fun _ => .pure _

end JobSteps

namespace ShellSteps

variable {environment : Environment} {relation : Shell → Shell → Prop}

theorem ofSilent (steps : ShellSteps environment relation) {α : Type} {action : JobAction α}
    (silent : Moves Silently action) : Moves relation (liftJob action) :=
  liftJob_lifted (steps.jobs.ofSilent silent)

theorem print (steps : ShellSteps environment relation) (fd : Int) (text : CString) :
    Moves relation (liftJob (dprintf fd text)) := steps.ofSilent (dprintf_silent fd text)

variable [Std.Refl relation] [IsTrans Shell relation] (steps : ShellSteps environment relation)

include steps

theorem getcwd : Moves relation (getcwd environment) := by
  refine (steps.ofSilent (outcome_silent _)).bind fun failure => ?_
  cases failure with
  | some text => exact .pure _
  | none => exact Moves.get.bind fun _ => .pure _

theorem setNewCwd (newCwd : CString) (callStderr : Int) :
    Moves relation (setNewCwd environment newCwd callStderr) := by
  refine (steps.ofSilent (isValidTargetDir_silent environment newCwd callStderr)).bind
    fun valid => ?_
  split
  · exact .pure _
  · refine steps.getcwd.bind fun current => ?_
    cases current with
    | error text => exact (steps.print _ _).bind fun _ => .pure _
    | ok cwd =>
        have left : Moves relation (modify fun shell => { shell with lwd := cwd } : ShellAction Unit) :=
          .modify fun shell => steps.moved shell shell.cwd cwd
        refine left.bind fun _ => ?_
        refine (steps.ofSilent (outcome_silent _)).bind fun answer => ?_
        cases answer with
        | error text => exact (steps.print _ _).bind fun _ => .pure _
        | ok entered =>
            have arrived : Moves relation
                (modify fun shell => { shell with cwd := entered } : ShellAction Unit) :=
              .modify fun shell => steps.moved shell entered shell.lwd
            exact arrived.bind fun _ => .pure _

theorem cd (call : CommandCall) : Moves relation (cd environment call) := by
  have moved : ∀ path, Moves relation (do
      return exitCodeOf (← Jsh.setNewCwd environment path call.stderr)) := fun path =>
    (steps.setNewCwd path call.stderr).bind fun _ => .pure _
  unfold Jsh.cd
  split
  · split
    · exact (steps.print _ _).bind fun _ => .pure _
    · exact moved _
  · split
    · refine Moves.get.bind fun shell => ?_
      split
      · exact Moves.get.bind fun shell => moved _
      · refine steps.getcwd.bind fun current => ?_
        cases current with
        | error text => exact (steps.print _ _).bind fun _ => .pure _
        | ok cwd => exact moved _
    · split
      · exact moved _
      · exact (steps.print _ _).bind fun _ => (steps.print _ _).bind fun _ => .pure _

theorem getCurrentWd : Moves relation (getCurrentWd environment) := by
  refine steps.getcwd.bind fun current => ?_
  cases current with
  | error text => exact .pure _
  | ok cwd => exact .pure _

theorem pwd (call : CommandCall) : Moves relation (pwd environment call) := by
  unfold Jsh.pwd
  split
  · exact (steps.print _ _).bind fun _ => .pure _
  · refine steps.getCurrentWd.bind fun _ => ?_
    refine (steps.print _ _).bind fun _ => ?_
    split
    · exact .pure _
    · exact .throw _

theorem lastExitCodeCommand (call : CommandCall) : Moves relation (lastExitCodeCommand call) := by
  unfold Jsh.lastExitCodeCommand
  split
  · exact (steps.print _ _).bind fun _ => .pure _
  · exact Moves.get.bind fun _ => (steps.print _ _).bind fun _ => .pure _

end ShellSteps

/-! ## Calm runs -/

theorem liftJob_moves {α : Type} {action : JobAction α}
    (moves : Moves (Course fun _ => False) action) : Moves Calm (liftJob action) :=
  fun start => liftJob_ends ⟨rfl, moves start.control, rfl, rfl⟩

theorem liftJob_quiet {α : Type} {action : JobAction α} (quiet : Moves Quietly action) :
    Moves Calm (liftJob action) := liftJob_moves (Course.ofQuiet quiet)

theorem liftJob_silent {α : Type} {action : JobAction α} (silent : Moves Silently action) :
    Moves Calm (liftJob action) := liftJob_quiet (quietly_of_silent silent)

theorem Calm.lift {start finish : Control} (course : Course (fun _ => False) start finish) :
    Lifted Calm start finish := by
  intro shell same
  subst same
  exact ⟨rfl, course, rfl, rfl⟩

theorem Calm.steps (environment : Environment) : ShellSteps environment Calm where
  jobs := (Course.steps environment).mono fun _ _ => .lift
  moved _ _ _ := ⟨rfl, .refl, rfl, rfl⟩

/-! ## `exit` -/

/-- `exit_command` has accepted to leave, with this value. -/
structure Left (call : CommandCall) (value : Int) (start finish : Shell) : Prop where
  parser : finish.parser = start.parser
  /-- No job is running or stopped when it accepts. -/
  control : ∃ control, Course (fun _ => False) start.control control ∧
    areJobsRunning control.table = false ∧
    finish.control = { control with trace := control.trace ++ [.leave call] }
  lastExitCode : finish.lastExitCode = value
  shouldExit : finish.shouldExit = true
  argument : call.argc = 1 ∧ value = start.lastExitCode ∨
    call.argc = 2 ∧ strtoimax (call.argv.getD 1 []) = (value, []) ∧ 0 ≤ value ∧ value ≤ 255

/-- The state in which `exit_command` returns. -/
def Shell.leaving (shell : Shell) (call : CommandCall) (value : Int) : Shell :=
  { shell with
    lastExitCode := value
    shouldExit := true
    control := { shell.control with trace := shell.control.trace ++ [.leave call] } }

theorem Calm.leaving {call : CommandCall} {value : Int} {start middle : Shell}
    (calm : Calm start middle) (idle : areJobsRunning middle.control.table = false)
    (argument : call.argc = 1 ∧ value = start.lastExitCode ∨
      call.argc = 2 ∧ strtoimax (call.argv.getD 1 []) = (value, []) ∧ 0 ≤ value ∧ value ≤ 255) :
    Left call value start (middle.leaving call value) :=
  ⟨calm.parser, ⟨middle.control, calm.course, idle, rfl⟩, rfl, rfl, argument⟩

theorem parseIntmaxT_ok {string : CString} {fd value : Int} {start finish : Control}
    (parsed : parseIntmaxT string fd start = .ok (some value) finish) :
    strtoimax string = (value, []) := by
  unfold parseIntmaxT at parsed
  cases read : strtoimax string with
  | mk number rest =>
      simp only [read] at parsed
      split at parsed
      · cases parsed
      · split at parsed
        · cases parsed
        · split at parsed
          · cases parsed
          · next whole =>
            cases parsed
            rw [not_ne_iff.mp whole]

theorem exitCommand_ok {environment : Environment} {call : CommandCall} {start finish : Shell}
    {value : Int} (ran : exitCommand environment call start = .ok value finish) :
    Calm start finish ∨ Left call value start finish := by
  have printed : ∀ (state : Shell) (text : CString), (do
      liftJob (dprintf call.stderr text)
      return (1 : Int)) state = .ok value finish → Calm state finish := fun state text ran =>
    ((((Calm.steps environment).print _ _).bind fun _ => Moves.pure _) state).of_ok ran
  unfold exitCommand at ran
  split at ran
  · exact .inl (printed _ _ ran)
  · obtain ⟨_, updated, update, ran⟩ := bind_eq_ok.mp ran
    have calm : Calm start updated :=
      (liftJob_moves (updateJobs_moves environment) start).of_ok update
    obtain ⟨_, _, got, ran⟩ := bind_eq_ok.mp ran
    cases got
    split at ran
    · exact .inl (trans_of Calm calm (printed _ _ ran))
    · next idle =>
      rw [Bool.not_eq_true] at idle
      split at ran
      · next one =>
        cases ran
        exact .inr (calm.leaving idle (.inl ⟨one, calm.lastExitCode⟩))
      · split at ran
        · next two =>
          obtain ⟨answer, parsed, parse, ran⟩ := bind_eq_ok.mp ran
          have calm' : Calm updated parsed :=
            (liftJob_silent (parseIntmaxT_silent _ call.stderr) updated).of_ok parse
          obtain ⟨control, read, rfl⟩ := liftJob_eq_ok.mp parse
          cases answer with
          | none =>
              cases ran
              exact .inl (trans_of Calm calm calm')
          | some number =>
              dsimp only at ran
              split at ran
              · exact .inl (trans_of Calm calm (trans_of Calm calm' (printed _ _ ran)))
              · next inside =>
                cases ran
                have same : control.table = updated.control.table :=
                  ((parseIntmaxT_silent _ call.stderr _).of_ok read).table
                refine .inr ((trans_of Calm calm calm').leaving (same ▸ idle) (.inr ⟨two, ?_, ?_⟩))
                · exact parseIntmaxT_ok read
                · omega
        · cases ran
          exact .inl calm

theorem ShellSteps.exitCommand {environment : Environment} {relation : Shell → Shell → Prop}
    [Std.Refl relation] [IsTrans Shell relation] (steps : ShellSteps environment relation)
    {call : CommandCall} (left : ∀ (shell : Shell) (value : Int), relation shell (shell.leaving call value)) :
    Moves relation (exitCommand environment call) := by
  unfold Jsh.exitCommand
  split
  · exact (steps.print _ _).bind fun _ => .pure _
  · refine (liftJob_lifted steps.jobs.updateJobs).bind fun _ => ?_
    refine Moves.get.bind fun updated => ?_
    split
    · exact (steps.print _ _).bind fun _ => .pure _
    · split
      · exact fun state => left state state.lastExitCode
      · split
        · refine (steps.ofSilent (parseIntmaxT_silent _ call.stderr)).bind fun parsed => ?_
          cases parsed with
          | none => exact .pure _
          | some value =>
              dsimp only
              split
              · exact (steps.print _ _).bind fun _ => .pure _
              · exact fun state => left state value
        · exact Moves.get.bind fun _ => .pure _

theorem exitCommand_error {environment : Environment} {call : CommandCall} {start finish : Shell}
    {halt : Halt} (ran : exitCommand environment call start = .error halt finish) :
    Calm start finish := by
  have printed : ∀ (state : Shell) (text : CString), (do
      liftJob (dprintf call.stderr text)
      return (1 : Int)) state = .error halt finish → Calm state finish := fun state text ran =>
    ((((Calm.steps environment).print _ _).bind fun _ => Moves.pure _) state).of_error ran
  unfold exitCommand at ran
  split at ran
  · exact printed _ _ ran
  · rcases bind_eq_error.mp ran with failed | ⟨_, updated, update, ran⟩
    · exact (liftJob_moves (updateJobs_moves environment) start).of_error failed
    · have calm : Calm start updated :=
        (liftJob_moves (updateJobs_moves environment) start).of_ok update
      rcases bind_eq_error.mp ran with failed | ⟨_, _, got, ran⟩
      · cases failed
      · cases got
        split at ran
        · exact trans_of Calm calm (printed _ _ ran)
        · split at ran
          · cases ran
          · split at ran
            · rcases bind_eq_error.mp ran with failed | ⟨answer, parsed, parse, ran⟩
              · exact trans_of Calm calm
                  ((liftJob_silent (parseIntmaxT_silent _ call.stderr) updated).of_error failed)
              · have calm' : Calm updated parsed :=
                  (liftJob_silent (parseIntmaxT_silent _ call.stderr) updated).of_ok parse
                cases answer with
                | none => cases ran
                | some number =>
                    dsimp only at ran
                    split at ran
                    · exact trans_of Calm calm (trans_of Calm calm' (printed _ _ ran))
                    · cases ran
            · cases ran

/-! ## Dispatch -/

/-- The state in which the execution of a call starts. -/
def Shell.calling (shell : Shell) (call : CommandCall) : Shell :=
  { shell with control := { shell.control with trace := shell.control.trace ++ [.call call] } }

/-- Every built-in other than `exit` moves the shell calmly. -/
theorem executeInternalCommand_eq (environment : Environment) (call : CommandCall) (start : Shell) :
    ∃ action : ShellAction Int,
      executeInternalCommand environment call start = action (start.calling call) ∧
        (Moves Calm action ∨ isInternalCommand call = true ∧
          action = exitCommand environment call) := by
  unfold executeInternalCommand
  rw [bind_of_ok (show liftJob (record (.call call)) start = .ok () (start.calling call) from rfl)]
  split
  · exact ⟨_, rfl, .inl ((Calm.steps environment).cd call)⟩
  · split
    · exact ⟨_, rfl, .inl ((Calm.steps environment).lastExitCodeCommand call)⟩
    · split
      · next exits => exact ⟨_, rfl, .inr ⟨by rw [isInternalCommand, exits]; decide, rfl⟩⟩
      · split
        · exact ⟨_, rfl, .inl ((Calm.steps environment).pwd call)⟩
        · split
          · exact ⟨_, rfl, .inl (liftJob_lifted ((Calm.steps environment).jobs.jobsCommand call))⟩
          · split
            · exact ⟨_, rfl, .inl (liftJob_lifted ((Calm.steps environment).jobs.killCommand call))⟩
            · split
              · exact ⟨_, rfl, .inl (liftJob_lifted ((Calm.steps environment).jobs.jobCommand _
                  (Calm.steps environment).jobs.foreground call))⟩
              · split
                · exact ⟨_, rfl, .inl (liftJob_lifted ((Calm.steps environment).jobs.jobCommand _
                    (Calm.steps environment).jobs.continueJobInBackground call))⟩
                · exact ⟨_, rfl, .inl (.pure _)⟩

theorem executeInternalCommand_ok {environment : Environment} {call : CommandCall}
    {start finish : Shell} {value : Int}
    (ran : executeInternalCommand environment call start = .ok value finish) :
    Calm (start.calling call) finish ∨
      isInternalCommand call = true ∧ Left call value (start.calling call) finish := by
  obtain ⟨action, same, calm | ⟨internal, exits⟩⟩ := executeInternalCommand_eq environment call start
  · exact .inl ((calm _).of_ok (same ▸ ran))
  · exact (exitCommand_ok (exits ▸ same ▸ ran)).imp_right fun left => ⟨internal, left⟩

theorem executeInternalCommand_error {environment : Environment} {call : CommandCall}
    {start finish : Shell} {halt : Halt}
    (ran : executeInternalCommand environment call start = .error halt finish) :
    Calm (start.calling call) finish := by
  obtain ⟨action, same, calm | ⟨_, exits⟩⟩ := executeInternalCommand_eq environment call start
  · exact (calm _).of_error (same ▸ ran)
  · exact exitCommand_error (exits ▸ same ▸ ran)

theorem ShellSteps.executeInternalCommand {environment : Environment}
    {relation : Shell → Shell → Prop} [Std.Refl relation] [IsTrans Shell relation]
    (steps : ShellSteps environment relation) {call : CommandCall}
    (called : ∀ shell : Shell, relation shell (shell.calling call))
    (left : ∀ (shell : Shell) (value : Int), relation shell (shell.leaving call value)) :
    Moves relation (executeInternalCommand environment call) := by
  have recorded : Moves relation (liftJob (record (.call call))) := called
  unfold Jsh.executeInternalCommand
  refine recorded.bind fun _ => ?_
  split
  · exact steps.cd call
  · split
    · exact steps.lastExitCodeCommand call
    · split
      · exact steps.exitCommand left
      · split
        · exact steps.pwd call
        · split
          · exact liftJob_lifted (steps.jobs.jobsCommand call)
          · split
            · exact liftJob_lifted (steps.jobs.killCommand call)
            · split
              · exact liftJob_lifted (steps.jobs.jobCommand _ steps.jobs.foreground call)
              · split
                · exact liftJob_lifted
                    (steps.jobs.jobCommand _ steps.jobs.continueJobInBackground call)
                · exact .pure _

/-! ## Launching -/

/-- A relation that the parts of the launch of a process keep to. -/
structure ForkSteps (environment : Environment) (relation : Shell → Shell → Prop) : Prop where
  outcome : ∀ {α : Type} (outcomes : Nat → α), Moves relation (liftJob (outcome outcomes))
  kill : ∀ target signal : Int, Moves relation (liftJob (kill environment target signal))
  child : ∀ child : Child, Moves relation (liftJob (record (.child child)))
  close : ∀ numbers : List Int,
    Moves relation (modifyKernel fun kernel => numbers.foldl Kernel.close kernel)

section Calls

variable {environment : Environment} {relation : Shell → Shell → Prop} [Std.Refl relation]
  [IsTrans Shell relation] {command : Command}

theorem ForkSteps.forkCall (steps : ForkSteps environment relation) (command : Command)
    (call : CommandCall) (job : Job) (fd fd2 : Int × Int) :
    Moves relation (forkCall environment command call job fd fd2) := by
  refine (steps.outcome _).bind fun forked => ?_
  cases forked with
  | none => exact .pure _
  | some pid =>
      refine Moves.get.bind fun shell => ?_
      refine (steps.child _).bind fun _ => ?_
      refine (steps.close [fd.1, fd2.2]).bind fun _ => ?_
      refine (steps.outcome _).bind fun told => ?_
      split
      · exact (steps.kill _ _).bind fun _ => .pure _
      · refine (steps.close [fd.2]).bind fun _ => ?_
        refine (steps.outcome _).bind fun answered => ?_
        split
        · exact (steps.kill _ _).bind fun _ => .pure _
        · exact (steps.close [fd2.1]).bind fun _ => .pure _

/-- A call is a built-in, or is launched between two pipes. -/
theorem executeSingleCommand_parts {call : CommandCall} {job : Job}
    (internal : isInternalCommand call = true →
      Moves relation (executeInternalCommand environment call))
    (called : Moves relation (liftJob (record (.call call))))
    (piped : Moves relation (pipe environment))
    (forks : ∀ fd fd2, Moves relation (forkCall environment command call job fd fd2)) :
    Moves relation (executeSingleCommand environment command call job) := by
  unfold executeSingleCommand
  split
  · next builtin => exact (internal builtin).bind fun _ => .pure _
  · refine called.bind fun _ => ?_
    refine piped.bind fun first => ?_
    cases first with
    | none => exact .pure _
    | some fd =>
        refine piped.bind fun second => ?_
        cases second with
        | none => exact .pure _
        | some fd2 => exact forks fd fd2

theorem executeCalls_parts
    (single : ∀ call job, Moves relation (executeSingleCommand environment command call job))
    (killed : ∀ target, Moves relation (liftJob (kill environment target sigkill)))
    (calls : List CommandCall) :
    ∀ (index : Nat) (info : Option InternalExitInfo) (job : Job),
      Moves relation (executeCalls environment command index info job calls) := by
  induction calls with
  | nil => exact fun _ _ _ => .pure _
  | cons call rest ih =>
      intro index info job
      refine (single call job).bind fun result => ?_
      obtain ⟨launched, job'⟩ := result
      cases launched with
      | none =>
          dsimp only
          split
          · exact (killed _).bind fun _ => .pure _
          · exact .pure _
      | some launched => exact ih _ _ _

end Calls

/-- A relation that the launch of the calls of a command keeps to. -/
structure LaunchSteps (environment : Environment) (relation : Shell → Shell → Prop) : Prop where
  silent : ∀ {start finish : Control}, Silently start finish → Lifted relation start finish
  kernel : ∀ (kernel : Kernel) (shell : Shell),
    relation shell { shell with parser := { shell.parser with kernel } }
  call : ∀ (call : CommandCall) (shell : Shell), relation shell (shell.calling call)
  child : ∀ (child : Child) (shell : Shell),
    relation shell
      { shell with control := { shell.control with trace := shell.control.trace ++ [.child child] } }
  internal : ∀ call : CommandCall, Moves relation (executeInternalCommand environment call)

namespace LaunchSteps

variable {environment : Environment} {relation : Shell → Shell → Prop}

theorem ofSilent (steps : LaunchSteps environment relation) {α : Type} {action : JobAction α}
    (silent : Moves Silently action) : Moves relation (liftJob action) :=
  liftJob_lifted (silent.mono fun _ _ => steps.silent)

theorem modifyKernel (steps : LaunchSteps environment relation) (update : Kernel → Kernel) :
    Moves relation (modifyKernel update) :=
  .modify fun shell => steps.kernel (update shell.parser.kernel) shell

theorem pipe (steps : LaunchSteps environment relation) : Moves relation (pipe environment) :=
  .modifyGet fun shell => steps.kernel (shell.parser.kernel.pipe environment.files).2 shell

theorem forkSteps (steps : LaunchSteps environment relation) : ForkSteps environment relation where
  outcome outcomes := steps.ofSilent (outcome_silent outcomes)
  kill target signal := steps.ofSilent (kill_silent environment target signal)
  child := steps.child
  close _ := steps.modifyKernel _

variable [Std.Refl relation] [IsTrans Shell relation] (steps : LaunchSteps environment relation)

include steps

theorem executeSingleCommand (command : Command) (call : CommandCall) (job : Job) :
    Moves relation (executeSingleCommand environment command call job) :=
  executeSingleCommand_parts (fun _ => steps.internal call) (steps.call call) steps.pipe
    (steps.forkSteps.forkCall command call job)

theorem executeCalls (command : Command) (calls : List CommandCall) :
    ∀ (index : Nat) (info : Option InternalExitInfo) (job : Job),
      Moves relation (executeCalls environment command index info job calls) :=
  executeCalls_parts (steps.executeSingleCommand command)
    (fun target => steps.forkSteps.kill target sigkill) calls

end LaunchSteps

/-! ## Moves of the shell -/

/-- One step of the execution of a command. The jobs that enter the table satisfy
`added`. -/
inductive ShellMove (added : Job → Prop) : Shell → Shell → Prop
  | calm {start finish : Shell} : Calm start finish → ShellMove added start finish
  | left {call : CommandCall} {value : Int} {start finish : Shell} :
      isInternalCommand call = true → Left call value start finish → ShellMove added start finish
  | call (call : CommandCall) (shell : Shell) : ShellMove added shell (shell.calling call)
  | child (child : Child) (shell : Shell) :
      ShellMove added shell
        { shell with control := { shell.control with trace := shell.control.trace ++ [.child child] } }
  | kernel (kernel : Kernel) (shell : Shell) :
      ShellMove added shell { shell with parser := { shell.parser with kernel } }
  | jobs {shell : Shell} {control : Control} :
      Course added shell.control control → ShellMove added shell { shell with control }

theorem ShellMove.mono {added weaker : Job → Prop} {start finish : Shell}
    (moved : ShellMove added start finish) (implies : ∀ job, added job → weaker job) :
    ShellMove weaker start finish := by
  cases moved with
  | calm calm => exact .calm calm
  | left internal left => exact .left internal left
  | call call => exact .call call _
  | child child => exact .child child _
  | kernel kernel => exact .kernel kernel _
  | jobs course => exact .jobs (Relation.ReflTransGen.mono (fun _ _ move => Move.mono move implies) _ _ course)

/-- The events of calls. -/
def Event.OfCalls : Event → Prop
  | .call _ | .child _ | .leave _ => True
  | _ => False

/-- A sequence of moves of the shell. -/
abbrev ShellCourse (added : Job → Prop) : Shell → Shell → Prop :=
  Relation.ReflTransGen (ShellMove added)

section Course

variable {added : Job → Prop}

theorem ShellCourse.ofCalm {α : Type} {action : ShellAction α} (calm : Moves Calm action) :
    Moves (ShellCourse added) action :=
  calm.mono fun _ _ moved => .single (.calm moved)

theorem liftJob_course {α : Type} {action : JobAction α} {start : Shell}
    (ends : Ends (Course added start.control) start.control action) :
    Ends (ShellCourse added start) start (liftJob action) :=
  liftJob_ends (.single (.jobs ends))

theorem modifyKernel_moves (update : Kernel → Kernel) :
    Moves (ShellCourse added) (modifyKernel update) :=
  .modify fun shell => .single (.kernel (update shell.parser.kernel) shell)

theorem executeInternalCommand_moves (environment : Environment) (call : CommandCall) :
    Moves (ShellCourse added) (executeInternalCommand environment call) := by
  intro start
  cases ran : executeInternalCommand environment call start with
  | ok value finish =>
      rw [Ends, ran]
      rcases executeInternalCommand_ok ran with calm | ⟨internal, left⟩
      · exact .tail (.single (.call call start)) (.calm calm)
      · exact .tail (.single (.call call start)) (.left internal left)
  | error halt finish =>
      rw [Ends, ran]
      exact .tail (.single (.call call start)) (.calm (executeInternalCommand_error ran))

theorem ShellCourse.launchSteps (environment : Environment) :
    LaunchSteps environment (ShellCourse added) where
  silent silently := by
    intro shell same
    subst same
    exact .single (.jobs (.single (.quiet silently.quietly)))
  kernel kernel shell := .single (.kernel kernel shell)
  call call shell := .single (.call call shell)
  child child shell := .single (.child child shell)
  internal := executeInternalCommand_moves environment

theorem executeCalls_moves (environment : Environment) (command : Command)
    (calls : List CommandCall) (index : Nat) (info : Option InternalExitInfo) (job : Job) :
    Moves (ShellCourse added) (executeCalls environment command index info job calls) :=
  (ShellCourse.launchSteps environment).executeCalls command calls index info job

end Course

/-- A built-in that is the only call of a command is executed by itself. -/
theorem runCommand_eq (environment : Environment) (command : Command) :
    (∃ call, command.commandCalls = [call] ∧ isInternalCommand call = true ∧
        runCommand environment command = do
          let exitCode ← executeInternalCommand environment call
          return newCommandResult exitCode) ∨
      (∀ call, isInternalCommand call = true → command.commandCalls ≠ [call]) ∧
        runCommand environment command = executeExternalCommand environment command := by
  unfold runCommand
  split
  · next call single =>
    split
    · next internal => exact .inl ⟨call, single, internal, rfl⟩
    · next outside =>
      refine .inr ⟨fun other internal same => ?_, rfl⟩
      rw [single] at same
      cases same
      exact outside internal
  · next several => exact .inr ⟨fun call _ => several call, rfl⟩

/-- What the moves of job control and the events of calls preserve is preserved. -/
theorem ShellCourse.preserves {added : Job → Prop} {start finish : Shell}
    (course : ShellCourse added start finish) (kept : Control → Prop)
    (move : ∀ {start finish : Control}, Move added start finish → kept start → kept finish)
    (event : ∀ {control : Control} {event : Event}, event.OfCalls → kept control →
      kept { control with trace := control.trace ++ [event] })
    (holds : kept start.control) : kept finish.control := by
  have moves : ∀ {start finish : Control}, Course added start finish → kept start → kept finish := by
    intro start finish course holds
    induction course with
    | refl => exact holds
    | tail _ moved ih => exact move moved ih
  have calm : ∀ {start finish : Control}, Course (fun _ => False) start finish → kept start →
      kept finish := fun course =>
    moves (Relation.ReflTransGen.mono (fun _ _ moved => Move.mono moved fun _ => False.elim) _ _ course)
  induction course with
  | refl => exact holds
  | tail _ moved ih =>
      cases moved with
      | calm moved => exact calm moved.course ih
      | left _ left =>
          obtain ⟨control, course, _, same⟩ := left.control
          rw [same]
          exact event (show Event.OfCalls (.leave _) from trivial) (calm course ih)
      | call call => exact event (show Event.OfCalls (.call call) from trivial) ih
      | child child => exact event (show Event.OfCalls (.child child) from trivial) ih
      | kernel _ => exact ih
      | jobs course => exact moves course ih

/-! ## The trace -/

/-- The events of the execution of a command, without the events of the loops around it. -/
def Event.Inner : Event → Prop
  | .line _ _ | .prompt _ | .command _ _ | .result _ => False
  | _ => True

theorem Event.OfJobs.inner {event : Event} (ofJobs : event.OfJobs) : event.Inner := by
  cases event <;> first | exact ofJobs | trivial

theorem ShellMove.recorded {added : Job → Prop} {start finish : Shell}
    (moved : ShellMove added start finish) :
    Recorded Event.Inner start.control.trace finish.control.trace := by
  cases moved with
  | calm calm => exact calm.course.recorded.mono fun _ => Event.OfJobs.inner
  | left _ left =>
      obtain ⟨control, course, _, same⟩ := left.control
      rw [same]
      exact trans_of (Recorded _) (course.recorded.mono fun _ => Event.OfJobs.inner)
        (.single _ (by trivial))
  | call _ | child _ => exact .single _ trivial
  | kernel _ => exact refl_of (Recorded _) _
  | jobs course => exact course.recorded.mono fun _ => Event.OfJobs.inner

theorem ShellCourse.recorded {added : Job → Prop} {start finish : Shell}
    (course : ShellCourse added start finish) :
    Recorded Event.Inner start.control.trace finish.control.trace := by
  induction course with
  | refl => exact refl_of (Recorded _) _
  | tail _ moved ih => exact trans_of (Recorded _) ih moved.recorded

end Jsh
