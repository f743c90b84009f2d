import Jsh.DescriptorLeaks
import Jsh.JobTrees
import Jsh.RunInvariants

/-!
# Processes the shell keeps track of

Where the shell records the processes it has launched and that have not been reported as
ended, as long as its launches and its waits succeed.
-/

set_option autoImplicit false

namespace Jsh

open Library

/-! ## Tracked processes -/

/-- `waitpid` does not report that the process has ended. -/
def Environment.Spares (environment : Environment) (pid : Int) : Prop :=
  ∀ count status, environment.waitpid count pid = .changed status →
    isFinishedStatus (jobStatusFromInt status) = false

/-- The subjob is that of the process, and is not recorded as finished. -/
structure Subjob.Tracks (subjob : Subjob) (child : Child) : Prop where
  pid : subjob.pid = child.pid
  command : subjob.command = child.call.commandString
  alive : isFinishedStatus subjob.lastStatus = false

/-- The job is that of the command of the process, and has a subjob for it. -/
structure Job.Tracks (job : Job) (child : Child) : Prop where
  command : job.commandString = child.command.commandString
  subjob : ∃ subjob : Subjob, some subjob ∈ job.subjobs ∧ subjob.Tracks child

/-- A job of the table is that of the process. -/
def JobTable.Tracks (table : JobTable) (child : Child) : Prop :=
  ∃ index job, table.slot index = some job ∧ job.Tracks child

section Waiting

variable {environment : Environment} {child : Child}

theorem Waited.tracks (spared : environment.Spares child.pid) {count : Nat}
    {subjobs subjobs' : List (Option Subjob)} {all : Bool} {pids : List Int}
    (waited : Waited environment count subjobs all subjobs' pids) :
    (∃ subjob : Subjob, some subjob ∈ subjobs ∧ subjob.Tracks child) →
      ∃ subjob : Subjob, some subjob ∈ subjobs' ∧ subjob.Tracks child := by
  induction waited with
  | nil => exact id
  | absent _ ih =>
      rintro ⟨subjob, member, tracks⟩
      cases member with
      | tail _ member =>
          obtain ⟨subjob', member', tracks'⟩ := ih ⟨subjob, member, tracks⟩
          exact ⟨subjob', .tail _ member', tracks'⟩
  | finished ended _ ih =>
      rintro ⟨subjob, member, tracks⟩
      cases member with
      | head =>
          rw [tracks.alive] at ended
          cases ended
      | tail _ member =>
          obtain ⟨subjob', member', tracks'⟩ := ih ⟨subjob, member, tracks⟩
          exact ⟨subjob', .tail _ member', tracks'⟩
  | failed _ _ => exact id
  | @waited count head lastStatus rest rest' all pids alive response _ ih =>
      rintro ⟨subjob, member, tracks⟩
      cases member with
      | head =>
          refine ⟨_, .head _, tracks.pid, tracks.command, ?_⟩
          rw [tracks.pid] at response
          cases answer : environment.waitpid count child.pid with
          | failed =>
              rw [answer] at response
              cases response
          | unchanged =>
              rw [answer] at response
              cases response
              exact alive
          | changed status =>
              rw [answer] at response
              cases response
              exact spared count status answer
      | tail _ member =>
          obtain ⟨subjob', member', tracks'⟩ := ih ⟨subjob, member, tracks⟩
          exact ⟨subjob', .tail _ member', tracks'⟩

theorem Job.Tracks.waited (spared : environment.Spares child.pid) {job : Job} {count : Nat}
    {subjobs : List (Option Subjob)} {all : Bool} {pids : List Int}
    (waited : Waited environment count job.subjobs all subjobs pids) (tracks : job.Tracks child)
    (status : JobStatus) : ({ job with subjobs, status } : Job).Tracks child :=
  ⟨tracks.command, waited.tracks spared tracks.subjob⟩

theorem Job.Tracks.unfinished {job : Job} (tracks : job.Tracks child) :
    isJobFinished job = false := by
  obtain ⟨subjob, member, tracks⟩ := tracks.subjob
  cases finished : isJobFinished job with
  | false => rfl
  | true =>
      have ended := isJobFinished_iff.mp finished _ ⟨subjob, member, rfl⟩
      rw [tracks.alive] at ended
      cases ended

end Waiting

/-! ## The job table -/

section Tables

variable {table : JobTable} {child : Child} {index : Nat} {job : Job}

theorem JobTable.Tracks.write (tracks : table.Tracks child) (found : table.slot index = some job)
    {job' : Job} (kept : job.Tracks child → job'.Tracks child) :
    (table.write index (some job')).Tracks child := by
  obtain ⟨other, tracking, entry, tracked⟩ := tracks
  have written := table.slot_write (JobTable.lt_of_slot found) (some job')
  by_cases same : other = index
  · subst same
    rw [found] at entry
    cases entry
    exact ⟨other, job', by rw [written, if_pos rfl], kept tracked⟩
  · exact ⟨other, tracking, by rw [written, if_neg same, entry], tracked⟩

/-- A finished job may leave the table. -/
theorem JobTable.Tracks.erase (tracks : table.Tracks child) (found : table.slot index = some job)
    (finished : isJobFinished job = true) : (table.erase index).Tracks child := by
  obtain ⟨other, tracking, entry, tracked⟩ := tracks
  refine ⟨other, tracking, ?_, tracked⟩
  rw [JobTable.slot_erase found, if_neg, entry]
  rintro rfl
  rw [found] at entry
  cases entry
  rw [tracked.unfinished] at finished
  cases finished

theorem JobAdded.tracks {id : Nat} {after : JobTable} (added : JobAdded job id table after) :
    (table.Tracks child → after.Tracks child) ∧ (job.Tracks child → after.Tracks child) := by
  constructor
  · rintro ⟨other, tracking, entry, tracked⟩
    refine ⟨other, tracking, ?_, tracked⟩
    rw [added.others, entry]
    rintro rfl
    exact added.free ⟨added.positive, by rw [entry]; rfl⟩
  · exact fun tracked => ⟨id - 1, _, added.entered, tracked.command, tracked.subjob⟩

end Tables

/-! ## Job control -/

/-- Every process that has been launched and is spared is in a job of the table, or among
those of a job that is being launched. -/
structure Followed (environment : Environment) (launched : Child → Prop) (control : Control) :
    Prop where
  consistent : control.table.Consistent
  tracked : ∀ child, .child child ∈ control.trace → environment.Spares child.pid →
    control.table.Tracks child ∨ launched child

section Jobs

variable {environment : Environment} {launched : Child → Prop}

theorem Followed.moved {added : Job → Prop} {start finish : Control}
    (followed : Followed environment launched start) (course : Course added start finish)
    (tracks : ∀ child, environment.Spares child.pid → start.table.Tracks child →
      finish.table.Tracks child) : Followed environment launched finish where
  consistent := course.consistent followed.consistent
  tracked child member spared := by
    obtain ⟨events, grown, ofJobs⟩ := course.recorded
    rw [grown] at member
    cases List.mem_append.mp member with
    | inl before =>
        exact (followed.tracked child before spared).imp_left (tracks child spared)
    | inr new => exact (ofJobs _ new).elim

theorem fdUpdateJob_tracks {fd : Int} {index : Nat} {start : Control}
    (consistent : start.table.Consistent) {child : Child} (spared : environment.Spares child.pid)
    (tracks : start.table.Tracks child) :
    Ends (fun finish => finish.table.Tracks child) start (fdUpdateJob environment fd index) := by
  cases found : start.table.slot index with
  | none =>
      rw [Ends, fdUpdateJob_absent found]
      exact tracks
  | some job =>
      obtain ⟨all, subjobs, pids, waited, same⟩ := fdUpdateJob_eq environment fd consistent found
      have kept := fun status tracked => Job.Tracks.waited spared waited tracked status
      rw [Ends, same]
      cases all with
      | false => exact tracks.write found (kept job.status)
      | true =>
          let job' := ({ job with subjobs } : Job).assessed environment (start.waited pids)
          have written := tracks.write found (kept job'.status)
          change (Control.announced _ index job.status job' fd).table.Tracks child
          rw [Control.announced_table, Control.rewritten, Control.store_table,
            Control.assessed_table, Control.waited_table]
          split
          · next finished => exact written.erase (JobTable.slot_update found _) finished
          · exact written

theorem Control.recovered_table (control : Control) (index : Nat) (job : Job) :
    (control.recovered index job).table =
      if isJobFinished job then control.table.erase index else control.table := by
  unfold Control.recovered
  split <;> rfl

theorem putJobInForeground_tracks {index : Nat} {start : Control}
    (consistent : start.table.Consistent) {child : Child} (spared : environment.Spares child.pid)
    (tracks : start.table.Tracks child) :
    Ends (fun finish => finish.table.Tracks child) start
      (putJobInForeground environment index) := by
  cases found : start.table.slot index with
  | none =>
      unfold putJobInForeground
      rw [ends_get, found]
      exact tracks
  | some job =>
      obtain ⟨all, subjobs, pids, waited, same⟩ :=
        putJobInForeground_eq environment consistent found
      have kept := fun status tracked => Job.Tracks.waited spared waited tracked status
      rw [Ends, same]
      split
      · exact tracks
      dsimp only
      split
      · exact tracks
      split
      · let job' := ({ job with subjobs } : Job).assessed environment
          (((start.gave job.pgid).signalled job sigcont).waited pids)
        have written := tracks.write found (kept job'.status)
        change (Control.recovered _ index job').table.Tracks child
        rw [Control.recovered_table, Control.rewritten, Control.store_table,
          Control.assessed_table, Control.waited_table]
        split
        · next finished => exact written.erase (JobTable.slot_update found _) finished
        · exact written
      · exact tracks.write found (kept job.status)

theorem Followed.steps (environment : Environment) (launched : Child → Prop) :
    JobSteps environment (Preserves (Followed environment launched)) where
  silent silently followed := by
    have course : Course (fun _ => False) _ _ := .single (.quiet silently.quietly)
    refine followed.moved course fun child _ tracks => ?_
    rwa [silently.table]
  signal signal found followed := by
    have course : Course (fun _ => False) _ _ := .single (.signal signal found)
    exact followed.moved course fun _ _ tracks => tracks
  update fd index start followed := by
    have moves : Moves (Course fun _ => False) (fdUpdateJob environment fd index) :=
      fdUpdateJob_moves environment fd index
    exact followed.moved (moves start) fun _ => fdUpdateJob_tracks followed.consistent
  foreground index start followed := by
    have moves : Moves (Course fun _ => False) (putJobInForeground environment index) :=
      putJobInForeground_moves environment index
    exact followed.moved (moves start) fun _ => putJobInForeground_tracks followed.consistent

end Jobs

/-! ## Launching -/

section Launching

variable {environment : Environment} {launched : Child → Prop}

theorem Followed.mono {weaker : Child → Prop} {control : Control}
    (followed : Followed environment launched control)
    (implies : ∀ child, .child child ∈ control.trace → launched child → weaker child) :
    Followed environment weaker control where
  consistent := followed.consistent
  tracked child member spared :=
    (followed.tracked child member spared).imp_right (implies child member)

/-- The processes that are being launched have entered the table. -/
theorem Followed.settled {control : Control} (followed : Followed environment launched control)
    (tracks : ∀ child : Child, environment.Spares child.pid → launched child →
      control.table.Tracks child) :
    Followed environment (fun _ => False) control where
  consistent := followed.consistent
  tracked child member spared :=
    .inl ((followed.tracked child member spared).elim (fun inside => inside) (tracks child spared))

theorem Followed.record {start finish : Control} {events : List Event}
    (followed : Followed environment launched start)
    (new : ∀ child, .child child ∈ events → launched child)
    (table : finish.table = start.table) (trace : finish.trace = start.trace ++ events) :
    Followed environment launched finish where
  consistent := table ▸ followed.consistent
  tracked child member spared := by
    rw [trace] at member
    rw [table]
    exact (List.mem_append.mp member).elim (followed.tracked child · spared) (.inr ∘ new child)

theorem Followed.event (event : Event) {start finish : Control} (childless : event.Childless)
    (followed : Followed environment launched start) (table : finish.table = start.table)
    (trace : finish.trace = start.trace ++ [event]) : Followed environment launched finish := by
  refine followed.record (fun child member => ?_) table trace
  rw [List.mem_singleton] at member
  subst member
  exact childless.elim

theorem executeInternalCommand_followed (call : CommandCall) :
    Moves (OnControl (Preserves (Followed environment launched)))
      (executeInternalCommand environment call) :=
  RunInvariant.executeInternalCommand (Followed.steps environment launched) Followed.event call

/-- The processes of a command that are launched are those of its job. -/
theorem executeCalls_followed (launching : environment.Launching) {command : Command}
    (calls : List CommandCall) :
    ∀ {slots : List (Option Subjob)} {info : Option InternalExitInfo} {job : Job}
      {result : Option InternalExitInfo × Job} {start finish : Shell},
      job.commandString = command.commandString →
      job.subjobs = slots ++ List.replicate calls.length none →
      executeCalls environment command slots.length info job calls start = .ok result finish →
      Followed environment job.Tracks start.control →
        Followed environment result.2.Tracks finish.control := by
  induction calls with
  | nil =>
      intro slots info job result start finish _ _ ran followed
      cases ran
      exact followed
  | cons call rest ih =>
      intro slots info job result start finish named empty ran followed
      obtain ⟨⟨first, job₁⟩, state, single, continued⟩ := bind_eq_ok.mp ran
      rw [List.length_cons, List.replicate_succ] at empty
      obtain ⟨some, sameTable⟩ := executeSingleCommand_launches launching single
      obtain ⟨first, rfl⟩ := Option.isSome_iff_exists.mp some
      dsimp only at continued
      cases external : isInternalCommand call with
      | true =>
          rcases executeSingleCommand_ok single with
            ⟨_, noPid, executed, rfl⟩ | ⟨external', _⟩
          · rw [if_neg (not_not.mpr noPid)] at continued
            have longer : slots.length + 1 = (slots ++ [none]).length := by simp
            rw [longer] at continued
            exact ih named (by simp [empty]) continued
              ((executeInternalCommand_followed call start).of_ok executed followed)
          · rw [external] at external'
            cases external'
      | false =>
          obtain ⟨pid, _, rfl, descriptors, trace⟩ := executeSingleCommand_forked external single
          have different : first.pid ≠ uninitializedPid := by
            unfold uninitializedPid
            omega
          rw [if_pos different] at continued
          have longer : slots.length + 1 =
              (slots ++ [Option.some (newSubjob call first.pid .running)]).length := by simp
          rw [longer] at continued
          refine ih ?_ (by simp [empty]) continued ?_
          · exact named
          · have kept : ∀ child, job.Tracks child →
                ({ job with
                  pgid := if job.pgid = 0 then first.pid else job.pgid
                  subjobs := job.subjobs.set slots.length
                    (Option.some (newSubjob call first.pid .running)) } : Job).Tracks child := by
              rintro child ⟨command', subjob, member, tracks⟩
              refine ⟨command', subjob, ?_, tracks⟩
              simp only [empty, List.set_append, Nat.lt_irrefl, if_false, Nat.sub_self,
                List.set_cons_zero, List.mem_append, List.mem_cons] at member ⊢
              grind
            refine (followed.mono fun child _ => kept child).record ?_ (sameTable external)
              (trace.trans (List.append_assoc _ _ _))
            intro child member
            simp only [List.cons_append, List.nil_append, List.mem_cons, List.not_mem_nil,
              reduceCtorEq, Event.child.injEq, or_false, false_or] at member
            subst member
            refine ⟨named, newSubjob call first.pid .running, ?_, rfl, rfl, rfl⟩
            simp [empty]

theorem executeCalls_succeeds (launching : environment.Launching) {command : Command}
    (calls : List CommandCall) :
    ∀ {index : Nat} {info : Option InternalExitInfo} {job : Job}
      {result : Option InternalExitInfo × Job} {start finish : Shell},
      executeCalls environment command index info job calls start = .ok result finish →
      (index = 0 ∧ calls ≠ [] ∨ info.isSome = true) → result.1.isSome = true := by
  induction calls with
  | nil =>
      intro index info job result start finish ran present
      cases ran
      exact present.resolve_left fun first => first.2 rfl
  | cons call rest ih =>
      intro index info job result start finish ran present
      obtain ⟨⟨first, job'⟩, state, single, continued⟩ := bind_eq_ok.mp ran
      obtain ⟨some, _⟩ := executeSingleCommand_launches launching single
      obtain ⟨first, rfl⟩ := Option.isSome_iff_exists.mp some
      refine ih continued (.inr ?_)
      split
      · rfl
      · next later => exact present.resolve_left fun first => later first.1

/-- After the launch the processes of the command are those of its job, which has none if
the command has no call. -/
theorem executeAsJob_followed (launching : environment.Launching) {command : Command}
    {info : Option InternalExitInfo} {job : Job} {start finish : Shell}
    (ran : executeAsJob environment command (setupJob command) start = .ok (info, job) finish)
    (followed : Followed environment (fun _ => False) start.control) :
    Followed environment job.Tracks finish.control ∧
      (info = none → ∀ child, ¬ job.Tracks child) := by
  constructor
  · exact @executeCalls_followed environment launching command command.commandCalls [] none
      (setupJob command) _ _ _ rfl rfl ran (followed.mono fun _ _ => False.elim)
  · rintro rfl child ⟨_, subjob, member, _⟩
    unfold executeAsJob at ran
    cases calls : command.commandCalls with
    | nil =>
        rw [calls] at ran
        cases ran
        simp [setupJob, newJob, calls] at member
    | cons call rest =>
        have some := executeCalls_succeeds launching command.commandCalls ran
          (.inl ⟨rfl, by simp [calls]⟩)
        cases some

/-- The waits succeed. -/
def Environment.Answers (environment : Environment) : Prop :=
  ∀ count pid, environment.waitpid count pid ≠ .failed

theorem Waited.all (answers : environment.Answers) {count : Nat}
    {subjobs subjobs' : List (Option Subjob)} {all : Bool} {pids : List Int}
    (waited : Waited environment count subjobs all subjobs' pids) : all = true := by
  induction waited with
  | nil => rfl
  | absent _ ih => exact ih
  | finished _ _ ih => exact ih
  | failed _ failed => exact absurd failed (answers _ _)
  | waited _ _ _ ih => exact ih

theorem keepJob_followed {info : InternalExitInfo} {job : Job} {start finish : Control}
    {result : CommandResult} (ran : keepJob info job start = .ok result finish)
    (followed : Followed environment job.Tracks start) :
    Followed environment (fun _ => False) finish := by
  obtain ⟨id, added⟩ := keepJob_ok followed.consistent ran
  have moves : Moves (Course fun _ => True) (keepJob info job) := keepJob_moves trivial info
  exact (followed.moved ((moves start).of_ok ran) fun child _ => added.tracks.1).settled
    fun child _ => added.tracks.2

theorem executeExternalCommand_followed (launching : environment.Launching)
    (answers : environment.Answers) {command : Command} {result : CommandResult}
    {start finish : Shell}
    (ran : executeExternalCommand environment command start = .ok result finish)
    (followed : Followed environment (fun _ => False) start.control) :
    Followed environment (fun _ => False) finish.control := by
  obtain ⟨⟨info, job⟩, launched, launch, rest⟩ := bind_eq_ok.mp ran
  obtain ⟨owned, none⟩ := executeAsJob_followed launching launch followed
  cases info with
  | none =>
      obtain ⟨_, _, closing, rest⟩ := bind_eq_ok.mp rest
      cases closing
      cases rest
      exact owned.mono fun child _ tracks => none rfl child tracks
  | some info =>
      cases background : command.background with
      | true =>
          exact keepJob_followed (executeExternalCommand_background launch ran background) owned
      | false =>
          obtain ⟨all, subjobs, pids, waited, ended⟩ :=
            executeExternalCommand_foreground launch ran background
          have course := executeExternalCommand_launched launch ran
          have kept := fun (child : Child) (spared : environment.Spares child.pid) tracks =>
            Job.Tracks.waited spared waited tracks
          rcases ended with ⟨failed, _⟩ | ⟨_, finished, _, table⟩ | ⟨_, _, control, table, keeps⟩
          · rw [waited.all answers] at failed
            cases failed
          · have moved := owned.moved course fun child _ tracks => by rwa [table]
            refine moved.settled fun child spared tracks => ?_
            have unfinished : isJobFinished (({ job with subjobs } : Job).assessed environment
                (launched.control.waited pids)) = false :=
              (kept child spared tracks _).unfinished
            rw [Job.finished_assessed, unfinished] at finished
            cases finished
          · have sameTable : launched.control.table.Consistent := owned.consistent
            rw [← table] at sameTable
            obtain ⟨id, added⟩ := keepJob_ok sameTable keeps
            rw [table] at added
            exact (owned.moved course fun child _ => added.tracks.1).settled
              fun child spared tracks => added.tracks.2 (kept child spared tracks _)

end Launching

/-! ## Runs of the shell -/

section Runs

variable {environment : Environment}

theorem Followed.invariant (launching : environment.Launching) (answers : environment.Answers) :
    RunInvariant environment (Followed environment fun _ => False) where
  jobs := Followed.steps environment _
  event := Followed.event
  external := executeExternalCommand_followed launching answers

/-- As long as the launches and the waits succeed: whenever the shell is about to read a
line, every process it has launched and that `waitpid` has not reported as ended has a
subjob that is not recorded as finished in the job of its command, and `exit` refuses. -/
theorem running_processes_in_job_table (launching : environment.Launching)
    (answers : environment.Answers) {cwd : CString} {inputs : List (Option CString)}
    {finish : Shell} (ran : prompt environment inputs (initInternals cwd) = .ok ⟨⟩ finish)
    {child : Child} (recorded : .child child ∈ finish.control.trace)
    (spared : environment.Spares child.pid) :
    finish.control.table.Tracks child ∧ areJobsRunning finish.control.table = true := by
  have started : Followed environment (fun _ => False) (initInternals cwd).control := by
    refine ⟨consistent_initJobTable, fun child member => ?_⟩
    cases member
  have followed := (Followed.invariant launching answers).prompt inputs ran started
  have tracks := (followed.tracked child recorded spared).resolve_right id
  refine ⟨tracks, ?_⟩
  obtain ⟨index, job, found, tracked⟩ := tracks
  refine List.any_eq_true.mpr ⟨job, JobTable.mem_jobs_of_slot found, ?_⟩
  rw [isJobAlive_eq, tracked.unfinished]
  rfl

end Runs

theorem launching_sleeping : Environment.sleeping.Launching :=
  ⟨fun _ => rfl, fun _ => Option.some_ne_none _, fun _ => rfl⟩

/-- A process of a pipeline in the background. -/
theorem sleeping_process_in_job_table :
    ∃ finish child, prompt .sleeping [some "sleep 5 | cat &".toList]
        (initInternals "/".toList) = .ok ⟨⟩ finish ∧
      .child child ∈ finish.control.trace ∧ finish.control.table.Tracks child ∧
      areJobsRunning finish.control.table = true := by
  obtain ⟨_, finish, ran, checked⟩ := exists_of_returns
    (show returns (fun _ (finish : Shell) =>
        finish.control.trace.any fun event => event.launches fun _ => true)
      (prompt .sleeping [some "sleep 5 | cat &".toList] (initInternals "/".toList)) = true by
        decide +kernel)
  obtain ⟨event, recorded, launched⟩ := List.any_eq_true.mp checked
  cases event with
  | child child =>
      have answers : Environment.sleeping.Answers := fun _ _ failed => by cases failed
      have spared : Environment.sleeping.Spares child.pid := fun _ _ changed => by cases changed
      exact ⟨finish, child, ran, recorded,
        running_processes_in_job_table launching_sleeping answers ran recorded spared⟩
  | _ => cases launched

end Jsh
