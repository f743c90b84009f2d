import Jsh.Foreground
import Jsh.JobGroups
import Jsh.CommandProperties
import Jsh.RejectedLines

/-!
# Exit codes of commands in the foreground

The exit code a command leaves, by what became of the last stage of its pipeline.
-/

set_option autoImplicit false

namespace Jsh

open Library

/-! ## Values of built-in commands -/

theorem exitCodeOf_nonneg (succeeded : Bool) : 0 ≤ exitCodeOf succeeded := by
  cases succeeded <;> decide

/-- The value returned is not negative. -/
abbrev Nonnegative {σ : Type} (action : EStateM Halt σ Int) : Prop := Yields (0 ≤ ·) action

theorem liftJob_yields {α : Type} {property : α → Prop} {action : JobAction α}
    (yields : Yields property action) : Yields property (liftJob action) := by
  intro start finish value ran
  obtain ⟨control, ran, _⟩ := liftJob_eq_ok.mp ran
  exact yields _ _ _ ran

theorem cd_nonneg (environment : Environment) (call : CommandCall) :
    Nonnegative (cd environment call) := by
  have entered : ∀ path, Nonnegative (do
      return exitCodeOf (← setNewCwd environment path call.stderr)) :=
    fun path => .bind fun succeeded => .pure (exitCodeOf_nonneg succeeded)
  unfold cd
  split
  · cases environment.home with
    | none => exact .bind fun _ => .pure Int.one_nonneg
    | some home => exact entered home
  · split
    · refine .bind fun shell => ?_
      split
      · exact .bind fun shell => entered shell.lwd
      · refine .bind fun answer => ?_
        cases answer with
        | error text => exact .bind fun _ => .pure Int.one_nonneg
        | ok cwd => exact entered cwd
    · split
      · exact entered _
      · exact .bind fun _ => .bind fun _ => .pure Int.one_nonneg

theorem pwd_nonneg (environment : Environment) (call : CommandCall) :
    Nonnegative (pwd environment call) := by
  unfold pwd
  split
  · exact .bind fun _ => .pure Int.one_nonneg
  · refine .bind fun answer => .bind fun _ => ?_
    split
    · exact .pure (Int.le_refl 0)
    · exact .throw _

theorem lastExitCodeCommand_nonneg (call : CommandCall) :
    Nonnegative (lastExitCodeCommand call) := by
  unfold lastExitCodeCommand
  split
  · exact .bind fun _ => .pure Int.one_nonneg
  · exact .bind fun _ => .bind fun _ => .pure (Int.le_refl 0)

theorem printSelectedJobs_nonneg (environment : Environment) (call : CommandCall) (tree : Bool)
    (stringJobIndex : Nat) : Nonnegative (printSelectedJobs environment call tree stringJobIndex) := by
  unfold printSelectedJobs
  dsimp only
  split
  · refine .bind fun found => ?_
    cases found with
    | none => exact .pure Int.one_nonneg
    | some index =>
        refine .bind fun control => ?_
        split
        · exact .throw _
        · split <;> exact .bind fun _ => .pure (Int.le_refl 0)
  · exact .bind fun _ => .bind fun _ => .pure (Int.le_refl 0)

theorem jobsCommand_nonneg (environment : Environment) (call : CommandCall) :
    Nonnegative (jobsCommand environment call) := by
  refine .bind fun _ => ?_
  split
  · exact .bind fun _ => .pure Int.one_nonneg
  · split
    · exact printSelectedJobs_nonneg environment call true 2
    · split
      · exact printSelectedJobs_nonneg environment call true 1
      · exact printSelectedJobs_nonneg environment call false 1

theorem killTarget_nonneg (environment : Environment) (sig : Int) (identifier : CString)
    (callStderr : Int) : Nonnegative (killTarget environment sig identifier callStderr) := by
  unfold killTarget
  split
  · refine .bind fun found => ?_
    cases found with
    | none => exact .pure Int.one_nonneg
    | some index =>
        refine .bind fun control => ?_
        split
        · exact .throw _
        · exact .bind fun _ => .bind fun answer => .pure (exitCodeOf_nonneg answer)
  · refine .bind fun parsed => ?_
    cases parsed with
    | none => exact .pure Int.one_nonneg
    | some parsedValue => exact .bind fun _ => .bind fun answer => .pure (exitCodeOf_nonneg answer)

theorem killCommand_nonneg (environment : Environment) (call : CommandCall) :
    Nonnegative (killCommand environment call) := by
  unfold killCommand
  split
  · exact .bind fun _ => .bind fun _ => .pure Int.one_nonneg
  · dsimp only
    split
    · refine .bind fun parsed => ?_
      cases parsed with
      | none => exact .pure Int.one_nonneg
      | some parsedValue =>
          dsimp only
          split
          · exact .bind fun _ => .pure (Int.le_refl 0)
          · exact killTarget_nonneg environment _ _ _
    · exact killTarget_nonneg environment _ _ _

theorem jobCommand_nonneg (name : CString) (action : Nat → JobAction Bool) (call : CommandCall) :
    Nonnegative (jobCommand name action call) := by
  unfold jobCommand
  split
  · exact .bind fun _ => .pure Int.one_nonneg
  · split
    · exact .bind fun _ => .pure Int.one_nonneg
    · refine .bind fun found => ?_
      cases found with
      | none => exact .pure Int.one_nonneg
      | some index => exact .bind fun succeeded => .pure (exitCodeOf_nonneg succeeded)

/-- `exit` returns a number it has read or the exit code of the shell. -/
theorem exitCommand_nonneg {environment : Environment} {call : CommandCall} {start finish : Shell}
    {value : Int} (before : 0 ≤ start.lastExitCode)
    (ran : exitCommand environment call start = .ok value finish) : 0 ≤ value := by
  have printed : ∀ text : CString, Nonnegative (do
      liftJob (dprintf call.stderr text)
      return (1 : Int)) := fun text => .bind fun _ => .pure Int.one_nonneg
  unfold exitCommand at ran
  split at ran
  · exact printed _ _ _ _ ran
  · obtain ⟨_, updated, update, ran⟩ := bind_eq_ok.mp ran
    have same := ((liftJob_moves (updateJobs_moves environment) start).of_ok update).lastExitCode
    obtain ⟨_, _, got, ran⟩ := bind_eq_ok.mp ran
    cases got
    split at ran
    · exact printed _ _ _ _ ran
    · split at ran
      · cases ran
        exact same ▸ before
      · split at ran
        · obtain ⟨answer, parsed, _, ran⟩ := bind_eq_ok.mp ran
          cases answer with
          | none =>
              cases ran
              exact Int.one_nonneg
          | some number =>
              dsimp only at ran
              split at ran
              · exact printed _ _ _ _ ran
              · next inside =>
                cases ran
                omega
        · cases ran
          exact same ▸ before

theorem executeInternalCommand_nonneg {environment : Environment} {call : CommandCall}
    {start finish : Shell} {value : Int} (before : 0 ≤ start.lastExitCode)
    (ran : executeInternalCommand environment call start = .ok value finish) : 0 ≤ value := by
  unfold executeInternalCommand at ran
  obtain ⟨_, _, recorded, ran⟩ := bind_eq_ok.mp ran
  cases recorded
  split at ran
  · exact cd_nonneg environment call _ _ _ ran
  · split at ran
    · exact lastExitCodeCommand_nonneg call _ _ _ ran
    · split at ran
      · have before' : 0 ≤ (start.calling call).lastExitCode := before
        exact exitCommand_nonneg before' ran
      · split at ran
        · exact pwd_nonneg environment call _ _ _ ran
        · split at ran
          · exact liftJob_yields (jobsCommand_nonneg environment call) _ _ _ ran
          · split at ran
            · exact liftJob_yields (killCommand_nonneg environment call) _ _ _ ran
            · split at ran
              · exact liftJob_yields (jobCommand_nonneg _ _ call) _ _ _ ran
              · split at ran
                · exact liftJob_yields (jobCommand_nonneg _ _ call) _ _ _ ran
                · cases ran
                  exact Int.le_refl 0

/-! ## The run of the shell -/

theorem chiefExitStatus_nonneg (environment : Environment) (count : Nat)
    (subjobs : List (Option Subjob)) : 0 ≤ chiefExitStatus environment count subjobs := by
  unfold chiefExitStatus
  repeat' split
  all_goals omega

/-- The info of a launched command has the exit code of a built-in, or none. -/
theorem executeAsJob_nonneg {environment : Environment} {command : Command} {job job' : Job}
    {start finish : Shell} {info : InternalExitInfo} (before : 0 ≤ start.lastExitCode)
    (ran : executeAsJob environment command job start = .ok (some info, job') finish) :
    hasExitCode info = true → 0 ≤ info.exitCode := by
  intro some
  cases calls : command.commandCalls with
  | nil =>
      rw [executeAsJob, calls] at ran
      cases ran
  | cons call rest =>
      rcases executeAsJob_chief calls ran with ⟨_, state, executed⟩ | ⟨_, marker⟩
      · exact executeInternalCommand_nonneg before executed
      · simp [hasExitCode, marker] at some

theorem executeExternalCommand_nonneg {environment : Environment} {command : Command}
    {start finish : Shell} {result : CommandResult} (before : 0 ≤ start.lastExitCode)
    (ran : executeExternalCommand environment command start = .ok result finish) :
    0 ≤ result.exitCode := by
  obtain ⟨⟨info, job⟩, launched, launch, continued⟩ := bind_eq_ok.mp ran
  cases info with
  | none =>
      obtain ⟨_, _, _, same⟩ := bind_eq_ok.mp continued
      cases same
      exact Int.one_nonneg
  | some info =>
      cases background : command.background with
      | true =>
          have kept := executeExternalCommand_background launch ran background
          exact Int.le_of_eq (keepJob_exitCode kept).symm
      | false =>
          obtain ⟨all, subjobs, pids, waited, outcome⟩ :=
            executeExternalCommand_foreground launch ran background
          rcases outcome with ⟨_, one, _⟩ | ⟨_, _, code, _⟩ | ⟨_, _, control, _, kept⟩
          · omega
          · rw [code]
            split
            · next some => exact executeAsJob_nonneg before launch some
            · exact chiefExitStatus_nonneg environment _ _
          · exact Int.le_of_eq (keepJob_exitCode kept).symm

theorem runCommand_nonneg {environment : Environment} {command : Command} {start finish : Shell}
    {result : CommandResult} (before : 0 ≤ start.lastExitCode)
    (ran : runCommand environment command start = .ok result finish) : 0 ≤ result.exitCode := by
  rcases runCommand_eq environment command with ⟨call, _, _, same⟩ | ⟨_, same⟩
  · rw [same] at ran
    obtain ⟨value, _, executed, returned⟩ := bind_eq_ok.mp ran
    cases returned
    exact executeInternalCommand_nonneg before executed
  · rw [same] at ran
    exact executeExternalCommand_nonneg before ran

theorem executeCommand_ok {environment : Environment} {command : Command} {start finish : Shell}
    {result : CommandResult}
    (ran : executeCommand environment command start = .ok result finish) :
    ∃ state, runCommand environment command start = .ok result state ∧
      finish.lastExitCode = result.exitCode := by
  obtain ⟨result', state, runs, ran⟩ := bind_eq_ok.mp ran
  obtain ⟨_, _, closed, ran⟩ := bind_eq_ok.mp ran
  obtain ⟨_, _, updated, ran⟩ := bind_eq_ok.mp ran
  cases ran
  cases closed
  cases updated
  exact ⟨state, runs, rfl⟩

/-- The exit code of the shell stays nonnegative. -/
def KeepsNonneg (start finish : Shell) : Prop := 0 ≤ start.lastExitCode → 0 ≤ finish.lastExitCode

instance : Std.Refl KeepsNonneg where
  refl _ := id

instance : IsTrans Shell KeepsNonneg where
  trans _ _ _ before after nonneg := after (before nonneg)

theorem ShellCourse.keepsNonneg {added : Job → Prop} {start finish : Shell}
    (course : ShellCourse added start finish) : KeepsNonneg start finish := by
  induction course with
  | refl => exact id
  | tail _ moved ih =>
      intro nonneg
      have before := ih nonneg
      cases moved with
      | calm calm => exact calm.lastExitCode ▸ before
      | left _ left =>
          rw [left.lastExitCode]
          rcases left.argument with ⟨_, same⟩ | ⟨_, _, positive, _⟩
          · exact same ▸ before
          · exact positive
      | call _ | child _ | kernel _ | jobs _ => exact before

theorem executeCommand_keepsNonneg (environment : Environment) (command : Command) :
    Moves KeepsNonneg (executeCommand environment command) := by
  intro start
  have moves := (runCommand_moves environment command).mono fun _ _ course => course.keepsNonneg
  cases ran : executeCommand environment command start with
  | ok result finish =>
      rw [Ends, ran]
      intro nonneg
      obtain ⟨state, runs, same⟩ := executeCommand_ok ran
      exact same ▸ runCommand_nonneg nonneg runs
  | error halt finish =>
      rw [Ends, ran]
      rcases bind_eq_error.mp ran with failed | ⟨result, state, _, ran⟩
      · exact (moves start).of_error failed
      · rcases bind_eq_error.mp ran with closed | ⟨_, _, _, ran⟩
        · cases closed
        · rcases bind_eq_error.mp ran with updated | ⟨_, _, _, returned⟩
          · cases updated
          · cases returned

theorem readLine_keepsNonneg (environment : Environment) (line : CString) :
    Moves KeepsNonneg (readLine environment line) := by
  intro start nonneg
  change 0 ≤ (parseReadLine environment.files line start.parser start.lastExitCode).lastExitCode
  rcases parseReadLine_lastExitCode_eq environment.files line start.parser start.lastExitCode with
    ⟨_, _, one⟩ | ⟨_, same⟩
  · rw [one]
    exact Int.one_nonneg
  · rw [same]
    exact nonneg

/-- In every run of the shell the exit code is nonnegative. -/
theorem prompt_lastExitCode_nonneg (environment : Environment) (inputs : List (Option CString)) :
    Moves KeepsNonneg (prompt environment inputs) := by
  apply prompt_moves
  · apply (Calm.steps environment).mono
    intro start finish calm nonneg
    exact calm.lastExitCode ▸ nonneg
  · exact fun _ _ _ => id
  · exact readLine_keepsNonneg environment
  · exact fun command _ _ => executeCommand_keepsNonneg environment command _

/-! ## The last stage of the pipeline -/

/-- What becomes of the last stage of a pipeline. -/
inductive Ending where
  | builtin (value : Int)
  | process (report : Report)

/-- The exit codes that say what became of the stage. -/
def Ending.Tells (exitCode : Int) : Ending → Prop
  | .builtin value => exitCode = value
  | .process (.exited code) => exitCode = (code : Nat)
  | .process (.killed _ _) => exitCode ≠ 0
  | .process (.stopped _) => False

/-- The commands whose calls are launched and reported on without a failure or a stop,
and the ending of their first call. -/
inductive Ended (environment : Environment) (command : Command) (start : Shell) : Ending → Prop
  | alone {call : CommandCall} {value : Int} {state : Shell} :
      command.commandCalls = [call] → isInternalCommand call = true →
      executeInternalCommand environment call start = .ok value state →
      Ended environment command start (.builtin value)
  | builtin {call : CommandCall} {rest : List CommandCall} {info : InternalExitInfo} {job : Job}
      {launched state : Shell} {reports : List Report} {value : Int} :
      command.commandCalls = call :: rest → isInternalCommand call = true →
      executeInternalCommand environment call start = .ok value state →
      executeAsJob environment command (setupJob command) start = .ok (some info, job) launched →
      Answered environment launched.control.calls (unfinished job.subjobs) reports →
      (¬ ∃ report ∈ reports, report.jobStatus = .stopped) →
      Ended environment command start (.builtin value)
  | process {call : CommandCall} {rest : List CommandCall} {info : InternalExitInfo} {job : Job}
      {launched : Shell} {report : Report} {reports : List Report} :
      command.commandCalls = call :: rest → isInternalCommand call = false →
      executeAsJob environment command (setupJob command) start = .ok (some info, job) launched →
      Answered environment launched.control.calls (unfinished job.subjobs) (report :: reports) →
      (¬ ∃ other ∈ report :: reports, other.jobStatus = .stopped) →
      Ended environment command start (.process report)

/-- The exit code that is kept: a killed process counts as one that has exited with 0. -/
def Ending.exitCode : Ending → Int
  | .builtin value => value
  | .process (.exited code) => (code : Nat)
  | .process _ => 0

/-- The exit code of a command whose processes have all finished. -/
theorem executeExternalCommand_exitCode {environment : Environment} {command : Command}
    {start launched finish : Shell} {info : InternalExitInfo} {job : Job} {result : CommandResult}
    {reports : List Report}
    (launch : executeAsJob environment command (setupJob command) start =
      .ok (some info, job) launched)
    (ran : executeExternalCommand environment command start = .ok result finish)
    (foreground : command.background = false)
    (answers : Answered environment launched.control.calls (unfinished job.subjobs) reports)
    (none : ¬ ∃ report ∈ reports, report.jobStatus = .stopped) :
    result.exitCode = if hasExitCode info then info.exitCode
      else chiefExitStatus environment launched.control.calls job.subjobs := by
  obtain ⟨all, subjobs, pids, waited, outcome⟩ :=
    executeExternalCommand_foreground launch ran foreground
  obtain ⟨complete, _, accounted⟩ := waited.accounted answers (launched.control.waited pids)
  rcases outcome with ⟨failed, _⟩ | ⟨_, _, code, _⟩ | ⟨_, alive, _⟩
  · rw [complete] at failed
    cases failed
  · exact code
  · have status := Job.finished_assessed environment (launched.control.waited pids)
      { job with subjobs }
    rw [accounted.finished.mpr none, alive] at status
    cases status

theorem Ended.lastExitCode {environment : Environment} {command : Command} {start finish : Shell}
    {ending : Ending} {result : CommandResult} (ended : Ended environment command start ending)
    (nonneg : 0 ≤ start.lastExitCode) (foreground : command.background = false)
    (ran : executeCommand environment command start = .ok result finish) :
    finish.lastExitCode = ending.exitCode := by
  obtain ⟨state, runs, same⟩ := executeCommand_ok ran
  rw [same]
  rcases runCommand_eq environment command with ⟨call, single, internal, asBuiltin⟩ | ⟨several, asJob⟩
  · rw [asBuiltin] at runs
    obtain ⟨value, _, executed, returned⟩ := bind_eq_ok.mp runs
    cases returned
    cases ended with
    | alone calls _ executed' | builtin calls _ executed' _ _ _ =>
        rw [single] at calls
        cases calls
        rw [executed] at executed'
        cases executed'
        rfl
    | process calls external _ _ _ =>
        rw [single] at calls
        cases calls
        rw [internal] at external
        cases external
  · rw [asJob] at runs
    cases ended with
    | alone calls internal _ => exact absurd calls (several _ internal)
    | @builtin call rest info job launched _ reports value calls internal executed launch answers none =>
        rw [executeExternalCommand_exitCode launch runs foreground answers none]
        have real : info.exitCode = value := by
          rcases executeAsJob_chief calls launch with ⟨_, _, executed'⟩ | ⟨external, _⟩
          · rw [executed] at executed'
            cases executed'
            rfl
          · rw [internal] at external
            cases external
        have positive : 0 ≤ value := executeInternalCommand_nonneg nonneg executed
        have marked : hasExitCode info = true := by
          rw [hasExitCode, decide_eq_true_iff, real, uninitializedExitCode]
          omega
        rw [if_pos marked]
        exact real
    | @process call rest info job launched report reports calls external launch answers none =>
        rw [executeExternalCommand_exitCode launch runs foreground answers none]
        have unmarked : ¬ hasExitCode info = true := by
          rcases executeAsJob_chief calls launch with ⟨internal, _⟩ | ⟨_, marker⟩
          · rw [external] at internal
            cases internal
          · simp [hasExitCode, marker]
        rw [if_neg unmarked]
        obtain ⟨slots, _⟩ := executeAsJob_slots launch
        rw [calls] at slots
        cases shape : job.subjobs with
        | nil =>
            rw [shape] at slots
            cases slots
        | cons slot others =>
            rw [shape] at slots answers
            cases slots with
            | cons launched _ =>
                cases launched with
                | internal internal =>
                    rw [external] at internal
                    cases internal
                | external _ _ =>
                    rw [chiefExitStatus_answered rfl answers]
                    cases report <;> rfl

/-- The exit code tells what became of the last stage of the pipeline, unless it is a
process killed by a signal. -/
theorem last_exit_code_tells {environment : Environment} {outcomes : FileOutcomes}
    {commandString : CString} {parser parser' : ParserState} {command : Command}
    {start finish : Shell} {ending : Ending} {result : CommandResult}
    (valid : parser.kernel.Valid)
    (accepted : parseCommand outcomes commandString parser = (some command, parser'))
    (nonneg : 0 ≤ start.lastExitCode)
    (ended : Ended environment command start ending)
    (ran : executeCommand environment command start = .ok result finish) :
    (∃ tree : Pipeline Labels.wired, tree.words = runs commandString ∧
        command.commandCalls.head? = some (tree.lastCall commandString none none)) ∧
      0 ≤ finish.lastExitCode ∧
      (ending.Tells finish.lastExitCode ↔
        ∀ signal core, ending ≠ .process (.killed signal core)) := by
  obtain ⟨tree, read⟩ := parseCommand_some valid accepted
  have code := ended.lastExitCode nonneg read.background ran
  refine ⟨⟨tree, ?_, ?_⟩, ?_, ?_⟩
  · rw [read.words, words_commandSeparator]
  · rw [read.calls]
    rfl
  · obtain ⟨state, runs, same⟩ := executeCommand_ok ran
    rw [same]
    exact runCommand_nonneg nonneg runs
  · rw [code]
    cases ending with
    | builtin value => simp [Ending.Tells, Ending.exitCode]
    | process report =>
        cases report with
        | exited code => simp [Ending.Tells, Ending.exitCode]
        | killed signal core => simp [Ending.Tells, Ending.exitCode]
        | stopped signal =>
            cases ended with
            | process _ _ _ _ none => exact absurd ⟨_, .head _, rfl⟩ none

/-- A command of one process that is reported on. -/
theorem Ended.of_launch {environment : Environment} {command : Command} {start : Shell}
    {call : CommandCall} {subjob : Subjob} {report : Report}
    (calls : command.commandCalls = [call]) (external : isInternalCommand call = false)
    (launches : returns (fun (result : Option InternalExitInfo × Job) _ =>
      result.1.isSome && decide (unfinished result.2.subjobs = [subjob]))
        (executeAsJob environment command (setupJob command) start) = true)
    (answer : ∀ count, environment.waitpid count subjob.pid = .changed report.word)
    (past : report.jobStatus ≠ .stopped) :
    Ended environment command start (.process report) := by
  obtain ⟨⟨info, job⟩, launched, launch, shape⟩ := exists_of_returns launches
  simp only [Bool.and_eq_true, decide_eq_true_iff] at shape
  obtain ⟨info, rfl⟩ := Option.isSome_iff_exists.mp shape.1
  have answers : Answered environment launched.control.calls (unfinished job.subjobs) [report] := by
    rw [show unfinished job.subjobs = [subjob] from shape.2]
    exact .cons (answer _) .nil
  exact .process calls external launch answers (by simpa using past)

/-- Every process ends with this report. -/
def Environment.reporting (report : Report) : Environment :=
  { Environment.exiting with waitpid := fun _ _ => .changed report.word }

/-- The command `sleep 5`. -/
def sleepCommand : Command :=
  { commandString := "sleep 5".toList
    commandCalls := [newCommandCall ["sleep".toList, "5".toList] "sleep 5".toList]
    background := false
    openPipes := [] }

theorem accepted_sleepCommand :
    parseCommand .allSucceed "sleep 5".toList startedShell =
      (some sleepCommand, (parseCommand .allSucceed "sleep 5".toList startedShell).2) :=
  Prod.ext (by decide +kernel) rfl

theorem ended_sleepCommand (report : Report) (past : report.jobStatus ≠ .stopped)
    (launches : returns (fun (result : Option InternalExitInfo × Job) _ =>
      result.1.isSome && decide (unfinished result.2.subjobs =
        [newSubjob (newCommandCall ["sleep".toList, "5".toList] "sleep 5".toList) 2 .running]))
        (executeAsJob (.reporting report) sleepCommand (setupJob sleepCommand)
          (initInternals "/".toList)) = true) :
    Ended (.reporting report) sleepCommand (initInternals "/".toList) (.process report) :=
  .of_launch rfl rfl launches (fun _ => rfl) past

/-- The exit code 3 of `sleep` is kept. -/
theorem exited_stage_exit_code :
    ∃ result finish, executeCommand (.reporting (.exited 3)) sleepCommand
        (initInternals "/".toList) = .ok result finish ∧ finish.lastExitCode = 3 := by
  have runs : returns (fun _ _ => true) (executeCommand (.reporting (.exited 3)) sleepCommand
      (initInternals "/".toList)) = true := by decide +kernel
  obtain ⟨result, finish, ran, _⟩ := exists_of_returns runs
  have ended := ended_sleepCommand (.exited 3) (by decide) (by decide +kernel)
  have tells := (last_exit_code_tells valid_startedShell accepted_sleepCommand (Int.le_refl 0) ended
    ran).2.2.mpr fun _ _ same => by cases same
  exact ⟨result, finish, ran, tells⟩

/-- When `sleep` is killed the exit code is 0. -/
theorem killed_stage_exit_code :
    let killed : Report := .killed ⟨9, by decide⟩ false
    ∃ result finish, Ended (.reporting killed) sleepCommand (initInternals "/".toList)
        (.process killed) ∧
      executeCommand (.reporting killed) sleepCommand (initInternals "/".toList) =
        .ok result finish ∧ ¬ Ending.Tells finish.lastExitCode (.process killed) := by
  intro killed
  have runs : returns (fun _ finish => decide (finish.lastExitCode = 0))
      (executeCommand (.reporting killed) sleepCommand (initInternals "/".toList)) = true := by
    decide +kernel
  obtain ⟨result, finish, ran, zero⟩ := exists_of_returns runs
  have ended := ended_sleepCommand killed (by decide) (by decide +kernel)
  exact ⟨result, finish, ended, ran, fun tells => tells (of_decide_eq_true zero)⟩

end Jsh
