import Jsh.Launching
import Jsh.JobUpdates
import Jsh.Prompt

/-!
# Commands in the foreground

What becomes of the job of a command once its processes have been launched: which jobs
enter the job table, and which exit code is kept.
-/

set_option autoImplicit false

namespace Jsh

open Library

/-! ## The end of `execute_external_command` -/

theorem keepJob_exitCode {info : InternalExitInfo} {job : Job} {start finish : Control}
    {result : CommandResult} (ran : keepJob info job start = .ok result finish) :
    result.exitCode = 0 := by
  obtain ⟨_, _, _, ran⟩ := bind_eq_ok.mp ran
  obtain ⟨_, _, _, same⟩ := bind_eq_ok.mp ran
  cases same
  rfl

theorem keepJob_ok {info : InternalExitInfo} {job : Job} {start finish : Control}
    {result : CommandResult} (consistent : start.table.Consistent)
    (ran : keepJob info job start = .ok result finish) :
    ∃ id, JobAdded job id start.table finish.table := by
  obtain ⟨⟨jobId, added⟩, entered, adds, ran⟩ := bind_eq_ok.mp ran
  obtain ⟨_, printed, prints, same⟩ := bind_eq_ok.mp ran
  cases same
  have contract := addJob_contract consistent job
  rw [adds] at contract
  obtain ⟨id, adding, _⟩ := contract
  rw [((printJob_moves added stderrFileno entered).of_ok prints).table]
  exact ⟨id, adding⟩

/-- A command in the background is put in the table as it has been launched. -/
theorem executeExternalCommand_background {environment : Environment} {command : Command}
    {start launched finish : Shell} {info : InternalExitInfo} {job : Job} {result : CommandResult}
    (launch : executeAsJob environment command (setupJob command) start =
      .ok (some info, job) launched)
    (ran : executeExternalCommand environment command start = .ok result finish)
    (background : command.background = true) :
    keepJob info job launched.control = .ok result finish.control := by
  unfold executeExternalCommand at ran
  rw [bind_of_ok launch] at ran
  obtain ⟨_, closed, closing, ran⟩ := bind_eq_ok.mp ran
  dsimp only at ran
  rw [if_pos background] at ran
  obtain ⟨control, kept, rfl⟩ := liftJob_eq_ok.mp ran
  cases closing
  exact kept

/-- A command in the foreground is waited for, and put in the table if it is not finished. -/
theorem executeExternalCommand_foreground {environment : Environment} {command : Command}
    {start launched finish : Shell} {info : InternalExitInfo} {job : Job} {result : CommandResult}
    (launch : executeAsJob environment command (setupJob command) start =
      .ok (some info, job) launched)
    (ran : executeExternalCommand environment command start = .ok result finish)
    (foreground : command.background = false) :
    ∃ all subjobs pids, Waited environment launched.control.calls job.subjobs all subjobs pids ∧
      let job' := ({ job with subjobs } : Job).assessed environment (launched.control.waited pids)
      (all = false ∧ result.exitCode = 1 ∧ finish.control.table = launched.control.table ∨
        all = true ∧ isFinishedStatus job'.status = true ∧
          result.exitCode = (if hasExitCode info then info.exitCode
            else chiefExitStatus environment launched.control.calls job.subjobs) ∧
          finish.control.table = launched.control.table ∨
        all = true ∧ isFinishedStatus job'.status = false ∧
          ∃ control, control.table = launched.control.table ∧
            keepJob info job' control = .ok result finish.control) := by
  unfold executeExternalCommand at ran
  rw [bind_of_ok launch] at ran
  obtain ⟨_, closed, closing, ran⟩ := bind_eq_ok.mp ran
  have sameControl : closed.control = launched.control := by
    cases closing
    rfl
  dsimp only at ran
  rw [if_neg (by simp [foreground])] at ran
  obtain ⟨all, subjobs, pids, waited, waits⟩ :=
    blockingWaitForJob_eq environment job launched.control
  refine ⟨all, subjobs, pids, waited, ?_⟩
  obtain ⟨⟨exitCode, job'⟩, state, lifted, ran⟩ := bind_eq_ok.mp ran
  obtain ⟨control, waiting, rfl⟩ := liftJob_eq_ok.mp lifted
  rw [sameControl, waits] at waiting
  obtain ⟨given, returned, lifted', decided⟩ := bind_eq_ok.mp ran
  obtain ⟨control', giving, rfl⟩ := liftJob_eq_ok.mp lifted'
  have sameTable : control'.table = control.table :=
    ((tcsetpgrp_moves environment environment.shellPgid control).of_ok giving).table
  dsimp only at decided
  split at decided
  · cases decided
  · cases all with
    | false =>
        rw [if_neg Bool.false_ne_true] at waiting
        cases waiting
        rw [if_pos rfl] at decided
        cases decided
        exact .inl ⟨rfl, rfl, sameTable⟩
    | true =>
        rw [if_pos rfl] at waiting
        cases waiting
        rw [if_neg (chiefExitStatus_ne environment launched.control.calls job.subjobs)] at decided
        have table : control'.table = launched.control.table := by
          rw [sameTable]
          unfold Control.assessed
          split <;> rfl
        simp only [← isFinishedStatus_iff] at decided
        split at decided
        · next finished =>
          cases decided
          exact .inr (.inl ⟨rfl, finished, rfl, table⟩)
        · next alive =>
          obtain ⟨control'', kept, rfl⟩ := liftJob_eq_ok.mp decided
          exact .inr (.inr ⟨rfl, Bool.not_eq_true _ ▸ alive, control', table, kept⟩)

/-! ## Jobs whose processes are reported on -/

/-- What is recorded in a job whose processes have been reported on. -/
structure Job.Accounted (job : Job) (reports : List Report) : Prop where
  running : ¬ job.Reports .running
  finished : isJobFinished job = true ↔ ¬ ∃ report ∈ reports, report.jobStatus = .stopped
  stopped : (∃ report ∈ reports, report.jobStatus = .stopped) → job.status = .stopped

theorem Report.jobStatus_ne_running (report : Report) : report.jobStatus ≠ .running := by
  cases report <;> simp [Report.jobStatus]

/-- The job after a wait in which all its processes have been reported on. -/
theorem Waited.accounted {environment : Environment} {count : Nat} {job : Job} {all : Bool}
    {subjobs : List (Option Subjob)} {pids : List Int} {reports : List Report}
    (waited : Waited environment count job.subjobs all subjobs pids)
    (answers : Answered environment count (Jsh.unfinished job.subjobs) reports)
    (control : Control) :
    all = true ∧ job.Updated (({ job with subjobs } : Job).assessed environment control) ∧
      (({ job with subjobs } : Job).assessed environment control).Accounted reports := by
  obtain ⟨complete, statuses⟩ := waited.answered answers
  refine ⟨complete, ⟨rfl, rfl, rfl, waited.updated⟩, ?_⟩
  have reported : ∀ status, (({ job with subjobs } : Job).assessed environment control).Reports
      status ↔ (∃ subjob : Subjob, some subjob ∈ job.subjobs ∧
        isFinishedStatus subjob.lastStatus = true ∧ subjob.lastStatus = status) ∨
          ∃ report ∈ reports, report.jobStatus = status := statuses
  have running : ¬ ({ job with subjobs } : Job).Reports .running := by
    intro runs
    rcases (reported .running).mp runs with ⟨subjob, _, past, status⟩ | ⟨report, _, status⟩
    · rw [status] at past
      cases past
    · exact report.jobStatus_ne_running status
  have finished : isJobFinished { job with subjobs } = true ↔
      ¬ ∃ report ∈ reports, report.jobStatus = .stopped := by
    rw [isJobFinished_iff]
    constructor
    · intro past stopped
      cases past .stopped ((reported .stopped).mpr (.inr stopped))
    · intro none status recorded
      rcases (reported status).mp recorded with ⟨subjob, _, past, rfl⟩ | ⟨report, member, rfl⟩
      · exact past
      · cases report with
        | exited _ | killed _ _ => rfl
        | stopped signal => exact absurd ⟨_, member, rfl⟩ none
  refine ⟨running, finished, fun stopped => ?_⟩
  have unfinished : isJobFinished { job with subjobs } = false := by
    apply Bool.eq_false_iff.mpr
    intro past
    exact finished.mp past stopped
  have idle : isJobRunning { job with subjobs } = false := by
    apply Bool.eq_false_iff.mpr
    intro runs
    exact running (isJobRunning_iff.mp runs)
  simp [Job.assessed, Job.derivedStatus, idle, isJobSuspended_iff.mpr ⟨unfinished, idle⟩]

/-! ## Results -/

theorem JobAdded.changes {job : Job} {id : Nat} {before after : JobTable}
    (added : JobAdded job id before after) : after ≠ before := by
  rintro rfl
  exact added.free ⟨added.positive, by simp [added.entered]⟩

theorem ShellCourse.consistent {added : Job → Prop} {start finish : Shell}
    (course : ShellCourse added start finish) (consistent : start.control.table.Consistent) :
    finish.control.table.Consistent :=
  course.preserves (fun control => control.table.Consistent) Move.consistent (fun _ => id)
    consistent

/-- After its launch a job in the background is in the table, and a job in the foreground
is if and only if one of its processes has been stopped. -/
theorem executeExternalCommand_accounted {environment : Environment} {command : Command}
    {start launched finish : Shell} {info : InternalExitInfo} {job : Job} {result : CommandResult}
    (consistent : launched.control.table.Consistent)
    (launch : executeAsJob environment command (setupJob command) start =
      .ok (some info, job) launched)
    (ran : executeExternalCommand environment command start = .ok result finish) :
    if command.background then
      ∃ id, JobAdded job id launched.control.table finish.control.table
    else
      ∀ reports, Answered environment launched.control.calls (Jsh.unfinished job.subjobs) reports →
        ∃ job', job.Updated job' ∧ job'.Accounted reports ∧
          if isJobFinished job' then finish.control.table = launched.control.table
          else ∃ id, JobAdded job' id launched.control.table finish.control.table := by
  split
  · next background =>
    exact keepJob_ok consistent (executeExternalCommand_background launch ran background)
  · next foreground =>
    intro reports answers
    obtain ⟨all, subjobs, pids, waited, outcome⟩ :=
      executeExternalCommand_foreground launch ran (Bool.not_eq_true _ ▸ foreground)
    obtain ⟨complete, updated, accounted⟩ := waited.accounted answers (launched.control.waited pids)
    refine ⟨_, updated, accounted, ?_⟩
    have status := Job.finished_assessed environment (launched.control.waited pids)
      { job with subjobs }
    rcases outcome with ⟨failed, _⟩ | ⟨_, past, _, table⟩ | ⟨_, alive, control, same, kept⟩
    · rw [complete] at failed
      cases failed
    · rw [past] at status
      rw [if_pos status.symm]
      exact table
    · rw [alive] at status
      rw [if_neg (by simp [← status]), ← same]
      exact keepJob_ok (same ▸ consistent) kept

/-- A job that has been brought back to the foreground leaves the table if and only if none
of its processes has been stopped. -/
theorem putJobInForeground_accounted {environment : Environment} {index : Nat} {job : Job}
    {reports : List Report} {start finish : Control} (consistent : start.table.Consistent)
    (found : start.table.slot index = some job)
    (answers : Answered environment (start.calls + 2) (Jsh.unfinished job.subjobs) reports)
    (ran : putJobInForeground environment index start = .ok true finish) :
    ∃ job', job.Updated job' ∧ job'.Accounted reports ∧
      finish.table.slot index = if isJobFinished job' then none else some job' := by
  obtain ⟨all, subjobs, pids, waited, same⟩ :=
    putJobInForeground_eq environment consistent found
  obtain ⟨complete, updated, accounted⟩ := waited.accounted answers
    (((start.gave job.pgid).signalled job sigcont).waited pids)
  refine ⟨_, updated, accounted, ?_⟩
  rw [same, complete] at ran
  split at ran
  · cases ran
  · dsimp only at ran
    split at ran
    · cases ran
    · rw [if_pos rfl] at ran
      injection ran with _ final
      rw [← final, Control.gave_table]
      apply Control.recovered_slot
      rw [Control.rewritten, Control.store_table]
      exact JobTable.slot_update (by simpa using found) _

/-- Every process of a launched command is accounted for: a command in the background has
its job in the table, and a job in the foreground is there if and only if one of its
processes has been stopped, with all the others finished. -/
theorem launched_processes_accounted (environment : Environment) :
    (∀ (command : Command) (start launched finish : Shell) (info : InternalExitInfo) (job : Job)
        (result : CommandResult),
      start.control.table.Consistent →
      executeAsJob environment command (setupJob command) start = .ok (some info, job) launched →
      executeExternalCommand environment command start = .ok result finish →
      (command.background = true →
        ∃ id, JobAdded job id launched.control.table finish.control.table) ∧
      (command.background = false → ∀ reports,
        Answered environment launched.control.calls (unfinished job.subjobs) reports →
        ∃ job', job.Updated job' ∧ job'.Accounted reports ∧
          ((∃ id, JobAdded job' id launched.control.table finish.control.table) ↔
            ∃ report ∈ reports, report.jobStatus = .stopped) ∧
          (finish.control.table = launched.control.table ↔ isJobFinished job' = true))) ∧
    (∀ (index : Nat) (job : Job) (reports : List Report) (start finish : Control),
      start.table.Consistent → start.table.slot index = some job →
      Answered environment (start.calls + 2) (unfinished job.subjobs) reports →
      putJobInForeground environment index start = .ok true finish →
      ∃ job', job.Updated job' ∧ job'.Accounted reports ∧
        finish.table.slot index = if isJobFinished job' then none else some job') := by
  refine ⟨?_, fun index job reports start finish => putJobInForeground_accounted⟩
  intro command start launched finish info job result consistent launch ran
  have moves : Moves (ShellCourse fun _ => False) (executeAsJob environment command (setupJob command)) :=
    executeCalls_moves environment command command.commandCalls 0 none (setupJob command)
  have consistent' := ShellCourse.consistent ((moves start).of_ok launch) consistent
  have accounted := executeExternalCommand_accounted consistent' launch ran
  constructor
  · intro background
    rwa [if_pos background] at accounted
  · intro foreground reports answers
    rw [if_neg (by simp [foreground])] at accounted
    obtain ⟨job', updated, accounted, outcome⟩ := accounted reports answers
    refine ⟨job', updated, accounted, ?_⟩
    cases finished : isJobFinished job' with
    | true =>
        rw [if_pos finished] at outcome
        have quiet := accounted.finished.mp finished
        rw [outcome]
        refine ⟨iff_of_false (fun ⟨id, adding⟩ => adding.changes rfl) quiet, iff_of_true rfl rfl⟩
    | false =>
        rw [if_neg (by simp [finished])] at outcome
        obtain ⟨id, adding⟩ := outcome
        have stopped : ∃ report ∈ reports, report.jobStatus = .stopped := by
          by_contra quiet
          rw [accounted.finished.mpr quiet] at finished
          cases finished
        exact ⟨iff_of_true ⟨id, adding⟩ stopped, iff_of_false adding.changes Bool.false_ne_true⟩

/-- Processes that stop, and then exit once they have been signalled. -/
def Environment.stopping (stops : Bool) : Environment :=
  { Environment.exiting with
    waitpid := fun _ _ =>
      .changed (if stops then (Report.stopped ⟨20, by decide⟩).word else (Report.exited 0).word)
    kill := fun _ _ _ => none }

/-- `sleep 5` enters the table when it is stopped, and leaves it when it has exited after
`fg`. -/
theorem stopped_command_enters_table :
    let sleep := newCommandCall ["sleep".toList, "5".toList] "sleep 5".toList
    let command : Command :=
      { commandString := "sleep 5".toList, commandCalls := [sleep], background := false
        openPipes := [] }
    let stopped : Job :=
      { newJob 1 "sleep 5".toList with
        id := 1, pgid := 2, subjobs := [some (newSubjob sleep 2 .stopped)] }
    (∃ result finish id job', executeExternalCommand (.stopping true) command
        (initInternals "/".toList) = .ok result finish ∧
      JobAdded job' id initJobTable finish.control.table ∧ job'.status = .stopped) ∧
    ∃ finish, putJobInForeground (.stopping false) 0
        { startedJobs with table := initJobTable.insert 0 stopped } = .ok true finish ∧
      finish.table.slot 0 = none := by
  intro sleep command stopped
  constructor
  · have launches : returns
        (fun (result : Option InternalExitInfo × Job) (shell : Shell) =>
          decide (shell.control.table = initJobTable) && result.1.isSome &&
            decide (result.2.subjobs = [some (newSubjob sleep 2 .running)]))
        (executeAsJob (.stopping true) command (setupJob command) (initInternals "/".toList)) =
          true := by decide +kernel
    have runs : returns (fun _ _ => true)
        (executeExternalCommand (.stopping true) command (initInternals "/".toList)) = true := by
      decide +kernel
    obtain ⟨⟨info, job⟩, launched, launch, shape⟩ := exists_of_returns launches
    obtain ⟨result, finish, ran, _⟩ := exists_of_returns runs
    simp only [Bool.and_eq_true, decide_eq_true_iff] at shape
    obtain ⟨⟨table, some⟩, subjobs⟩ := shape
    obtain ⟨info, rfl⟩ := Option.isSome_iff_exists.mp some
    have answers : Answered (.stopping true) launched.control.calls (unfinished job.subjobs)
        [.stopped ⟨20, by decide⟩] := by
      rw [show job.subjobs = _ from subjobs]
      exact .cons rfl .nil
    have result := ((launched_processes_accounted (.stopping true)).1 command _ _ _ _ _ _
      consistent_initJobTable launch ran).2 rfl _ answers
    obtain ⟨job', _, accounted, adding, _⟩ := result
    have one : ∃ report ∈ [Report.stopped ⟨20, by decide⟩], report.jobStatus = .stopped :=
      ⟨_, .head _, rfl⟩
    obtain ⟨id, added⟩ := adding.mpr one
    rw [table] at added
    exact ⟨_, finish, id, job', ran, added, accounted.stopped one⟩
  · have runs : returns (fun (back : Bool) _ => back)
        (putJobInForeground (.stopping false) 0
          { startedJobs with table := initJobTable.insert 0 stopped }) = true := by
      decide +kernel
    obtain ⟨back, finish, ran, rfl⟩ := exists_of_returns runs
    have answers : Answered (.stopping false) 2 (unfinished stopped.subjobs) [.exited 0] :=
      .cons rfl .nil
    have consistent : (initJobTable.insert 0 stopped).Consistent :=
      consistent_initJobTable.insert (by decide) rfl stopped
    obtain ⟨job', _, accounted, slot⟩ := (launched_processes_accounted (.stopping false)).2 0 stopped
      [.exited 0] _ finish consistent rfl answers ran
    have none : ¬ ∃ report ∈ [Report.exited 0], report.jobStatus = .stopped := by decide
    rw [if_pos (accounted.finished.mpr none)] at slot
    exact ⟨finish, ran, slot⟩

end Jsh
