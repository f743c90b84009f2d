import Mathlib.Data.List.ReduceOption
import Jsh.JobMoves

/-!
# Statuses of jobs

What `update_job_status` makes of the statuses of the processes of a job.
-/

set_option autoImplicit false

namespace Jsh

open Library

/-! ## The predicates on jobs -/

/-- A process of the job was last reported with this status. -/
def Job.Reports (job : Job) (status : JobStatus) : Prop :=
  ∃ subjob : Subjob, some subjob ∈ job.subjobs ∧ subjob.lastStatus = status

theorem Job.mem_statuses {job : Job} {status : JobStatus} :
    status ∈ job.statuses ↔ job.Reports status := by
  unfold Job.statuses Job.Reports
  simp only [List.mem_map, List.reduceOption_mem_iff]

theorem isJobRunning_iff {job : Job} : isJobRunning job = true ↔ job.Reports .running := by
  rw [← Job.mem_statuses]
  simp [isJobRunning]

theorem isJobFinished_iff {job : Job} :
    isJobFinished job = true ↔ ∀ status, job.Reports status → isFinishedStatus status = true := by
  simp only [isJobFinished, List.all_eq_true, Job.mem_statuses]

theorem isJobKilled_iff {job : Job} (finished : isJobFinished job = true) :
    isJobKilled job = true ↔ job.Reports .killed := by
  rw [← Job.mem_statuses]
  simp [isJobKilled, finished]

theorem isFinishedStatus_eq_false {status : JobStatus} :
    isFinishedStatus status = false ↔ status = .running ∨ status = .stopped := by
  cases status <;> decide

theorem isFinishedStatus_iff {status : JobStatus} :
    isFinishedStatus status = true ↔ status = .done ∨ status = .killed ∨ status = .detached := by
  cases status <;> decide

theorem isJobAlive_eq (job : Job) : isJobAlive job = !isJobFinished job := by
  rw [isJobAlive, isJobFinished, List.not_all_eq_any_not]
  congr 1
  funext status
  cases status <;> rfl

theorem isJobSuspended_iff {job : Job} :
    isJobSuspended job = true ↔ isJobFinished job = false ∧ isJobRunning job = false := by
  simp [isJobSuspended, isJobRunning]

/-- One of the first three branches of `update_job_status` is taken. -/
theorem job_status_cases (job : Job) :
    isJobRunning job = true ∨ isJobSuspended job = true ∨ isJobFinished job = true := by
  cases running : isJobRunning job with
  | true => exact .inl rfl
  | false =>
      cases finished : isJobFinished job with
      | true => exact .inr (.inr rfl)
      | false => exact .inr (.inl (isJobSuspended_iff.mpr ⟨finished, running⟩))

theorem isJobFinished_of_running {job : Job} (running : isJobRunning job = true) :
    isJobFinished job = false := by
  apply Bool.eq_false_iff.mpr
  intro finished
  have past := isJobFinished_iff.mp finished _ (isJobRunning_iff.mp running)
  cases past

/-! ## The status of a job -/

/-- The status of a job by the statuses of its processes and whether the probe of its
process group finds a process. -/
inductive Specified (reports : JobStatus → Prop) (found : Prop) : JobStatus → Prop
  | running : reports .running → Specified reports found .running
  | stopped : (∃ status, reports status ∧ isFinishedStatus status = false) →
      (∀ status, reports status → isFinishedStatus status = false → status = .stopped) →
      Specified reports found .stopped
  | detached : (∀ status, reports status → isFinishedStatus status = true) → found →
      Specified reports found .detached
  | killed : (∀ status, reports status → isFinishedStatus status = true) → ¬ found →
      reports .killed → Specified reports found .killed
  | done : (∀ status, reports status → isFinishedStatus status = true) → ¬ found →
      ¬ reports .killed → Specified reports found .done

/-- The statuses of the processes leave one status for the job. -/
theorem Specified.unique {reports : JobStatus → Prop} {found : Prop} {first second : JobStatus}
    (specified : Specified reports found first) (specified' : Specified reports found second) :
    first = second := by
  have running : reports .running →
      ¬ ∀ status, reports status → isFinishedStatus status = true := by
    intro runs finished
    cases finished _ runs
  have stopped : (∃ status, reports status ∧ isFinishedStatus status = false) →
      ¬ ∀ status, reports status → isFinishedStatus status = true := by
    rintro ⟨status, reported, unfinished⟩ finished
    rw [finished status reported] at unfinished
    cases unfinished
  have apart : reports .running →
      ¬ ∀ status, reports status → isFinishedStatus status = false → status = .stopped := by
    intro runs suspended
    cases suspended _ runs rfl
  cases specified with
  | running runs =>
      cases specified' with
      | running _ => rfl
      | stopped _ suspended => exact absurd suspended (apart runs)
      | detached finished _ | killed finished _ _ | done finished _ _ =>
          exact absurd finished (running runs)
  | stopped unfinished suspended =>
      cases specified' with
      | running runs => exact absurd suspended (apart runs)
      | stopped _ _ => rfl
      | detached finished _ | killed finished _ _ | done finished _ _ =>
          exact absurd finished (stopped unfinished)
  | detached finished found =>
      cases specified' with
      | running runs => exact absurd finished (running runs)
      | stopped unfinished _ => exact absurd finished (stopped unfinished)
      | detached _ _ => rfl
      | killed _ none _ | done _ none _ => exact absurd found none
  | killed finished none killed =>
      cases specified' with
      | running runs => exact absurd finished (running runs)
      | stopped unfinished _ => exact absurd finished (stopped unfinished)
      | detached _ found => exact absurd found none
      | killed _ _ _ => rfl
      | done _ _ clean => exact absurd killed clean
  | done finished none clean =>
      cases specified' with
      | running runs => exact absurd finished (running runs)
      | stopped unfinished _ => exact absurd finished (stopped unfinished)
      | detached _ found => exact absurd found none
      | killed _ _ killed => exact absurd killed clean
      | done _ _ _ => rfl

/-- The status `update_job_status` sets, if the probe answers `found`. -/
def Job.derivedStatus (job : Job) (found : Bool) : JobStatus :=
  if isJobRunning job then .running
  else if isJobSuspended job then .stopped
  else if found then .detached
  else if isJobKilled job then .killed
  else .done

theorem Job.derivedStatus_specified (job : Job) (found : Bool) :
    Specified job.Reports (found = true) (job.derivedStatus found) := by
  unfold Job.derivedStatus
  split
  · next running => exact .running (isJobRunning_iff.mp running)
  · next idle =>
    split
    · next suspended =>
      obtain ⟨unfinished, _⟩ := isJobSuspended_iff.mp suspended
      apply Specified.stopped
      · obtain ⟨status, recorded, alive⟩ := List.all_eq_false.mp unfinished
        exact ⟨status, Job.mem_statuses.mp recorded, Bool.not_eq_true _ ▸ alive⟩
      · intro status reported alive
        apply (isFinishedStatus_eq_false.mp alive).resolve_left
        rintro rfl
        exact idle (isJobRunning_iff.mpr reported)
    · next active =>
      have finished := ((job_status_cases job).resolve_left idle).resolve_left active
      have past := isJobFinished_iff.mp finished
      cases found with
      | true => exact .detached past rfl
      | false =>
          rw [if_neg Bool.false_ne_true]
          split
          · next killed =>
            exact .killed past Bool.false_ne_true ((isJobKilled_iff finished).mp killed)
          · next clean =>
            exact .done past Bool.false_ne_true fun reported =>
              clean ((isJobKilled_iff finished).mpr reported)

theorem Job.derivedStatus_finished {job : Job} (finished : isJobFinished job = true) (found : Bool) :
    isFinishedStatus (job.derivedStatus found) = true := by
  have past := isJobFinished_iff.mp finished
  have specified := job.derivedStatus_specified found
  generalize job.derivedStatus found = status at specified ⊢
  cases specified with
  | detached _ _ | killed _ _ _ | done _ _ _ => rfl
  | running runs => exact past _ runs
  | stopped unfinished _ =>
      obtain ⟨status, reported, alive⟩ := unfinished
      rw [past status reported] at alive
      cases alive

theorem Job.derivedStatus_unfinished {job : Job} (unfinished : isJobFinished job = false)
    (found : Bool) : isFinishedStatus (job.derivedStatus found) = false := by
  obtain ⟨status, recorded, alive⟩ := List.all_eq_false.mp unfinished
  have specified := job.derivedStatus_specified found
  generalize job.derivedStatus found = derived at specified ⊢
  cases specified with
  | running _ | stopped _ _ => rfl
  | detached finished _ | killed finished _ _ | done finished _ _ =>
      exact absurd (finished status (Job.mem_statuses.mp recorded)) alive

/-- The state after the probe of a process group. -/
def Control.probed (control : Control) (pgid : Int) : Control :=
  { control with trace := control.trace ++ [.kill (-pgid) 0], calls := control.calls + 1 }

/-- The job with its status updated. -/
def Job.assessed (environment : Environment) (control : Control) (job : Job) : Job :=
  { job with status := job.derivedStatus (environment.kill control.calls (-job.pgid) 0).isNone }

/-- The state after the status of a job has been updated: only finished jobs are probed. -/
def Control.assessed (control : Control) (job : Job) : Control :=
  if isJobFinished job then control.probed job.pgid else control

theorem updateJobStatus_eq (environment : Environment) (job : Job) (start : Control) :
    updateJobStatus environment job start =
      .ok (job.assessed environment start) (start.assessed job) := by
  unfold updateJobStatus Job.assessed Control.assessed Job.derivedStatus
  split
  · next running => simp [isJobFinished_of_running running, pure_apply]
  · split
    · next suspended => simp [(isJobSuspended_iff.mp suspended).1, pure_apply]
    · split
      · cases answer : environment.kill start.calls (-job.pgid) 0 with
        | none =>
            rw [bind_of_ok (show kill environment (-job.pgid) 0 start =
              .ok none (start.probed job.pgid) by rw [← answer]; rfl)]
            simp [pure_apply]
        | some error =>
            rw [bind_of_ok (show kill environment (-job.pgid) 0 start =
              .ok (some error) (start.probed job.pgid) by rw [← answer]; rfl)]
            dsimp only
            split <;> simp_all [pure_apply]
      · next idle active unfinished =>
        exact absurd (((job_status_cases job).resolve_left idle).resolve_left active) unfinished

theorem Job.finished_assessed (environment : Environment) (control : Control) (job : Job) :
    isFinishedStatus (job.assessed environment control).status =
      isJobFinished (job.assessed environment control) := by
  change _ = isJobFinished job
  cases finished : isJobFinished job with
  | true => exact Job.derivedStatus_finished finished _
  | false => exact Job.derivedStatus_unfinished finished _

/-- The predicates do not depend on the order of the subjobs. -/
theorem Job.derivedStatus_perm {job : Job} {subjobs : List (Option Subjob)}
    (perm : subjobs.Perm job.subjobs) (found : Bool) :
    isJobFinished { job with subjobs } = isJobFinished job ∧
      ({ job with subjobs } : Job).derivedStatus found = job.derivedStatus found := by
  have same : ({ job with subjobs } : Job).Reports = job.Reports := by
    funext status
    unfold Job.Reports
    simp only [perm.mem_iff]
  constructor
  · apply Bool.eq_iff_iff.mpr
    rw [isJobFinished_iff, isJobFinished_iff, same]
  · apply Specified.unique (Job.derivedStatus_specified _ found)
    rw [same]
    exact job.derivedStatus_specified found

/-- `update_job_status` gives a job the specified status, which no order of the subjobs
changes, and never reaches its last branch. -/
theorem updateJobStatus_specification (environment : Environment) (job : Job) (start : Control) :
    ∃ status finish,
      updateJobStatus environment job start = .ok { job with status } finish ∧
      (∀ other, Specified job.Reports (environment.kill start.calls (-job.pgid) 0 = none) other ↔
        other = status) ∧
      (∀ subjobs : List (Option Subjob), subjobs.Perm job.subjobs →
        updateJobStatus environment { job with subjobs } start =
          .ok { job with subjobs, status } finish) ∧
      (isJobRunning job = true ∨ isJobSuspended job = true ∨ isJobFinished job = true) ∧
      isJobAlive job = !isJobFinished job := by
  have specified := job.derivedStatus_specified (environment.kill start.calls (-job.pgid) 0).isNone
  rw [Option.isNone_iff_eq_none] at specified
  refine ⟨_, _, updateJobStatus_eq environment job start, fun other => ?_, fun subjobs perm => ?_,
    job_status_cases job, isJobAlive_eq job⟩
  · constructor
    · intro specified'
      exact specified'.unique specified
    · rintro rfl
      exact specified
  · obtain ⟨finished, derived⟩ := Job.derivedStatus_perm perm
      (environment.kill start.calls (-job.pgid) 0).isNone
    rw [updateJobStatus_eq, Job.assessed, Control.assessed, finished, derived]
    rfl

end Jsh
