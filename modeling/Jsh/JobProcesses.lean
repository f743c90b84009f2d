import Jsh.HandshakeRuns
import Jsh.JobTrees
import Jsh.RunInvariants

/-!
# Processes of jobs

The processes of the jobs in the table are those that have been launched for their
commands, and no process belongs to two jobs, as long as `fork` does not return the same
process twice.
-/

set_option autoImplicit false

namespace Jsh

open Library

/-! ## Ownership -/

/-- The process leads the process group of the job, or has been launched for it. -/
def Job.Owns (job : Job) (pid : Int) : Prop :=
  pid = job.pgid ∧ pid ≠ 0 ∨ ∃ subjob : Subjob, some subjob ∈ job.subjobs ∧ subjob.pid = pid

theorem SubjobsUpdated.pid_iff {subjobs subjobs' : List (Option Subjob)}
    (updated : SubjobsUpdated subjobs subjobs') {pid : Int} :
    (∃ subjob : Subjob, some subjob ∈ subjobs' ∧ subjob.pid = pid) ↔
      ∃ subjob : Subjob, some subjob ∈ subjobs ∧ subjob.pid = pid := by
  induction updated with
  | nil => rfl
  | cons slot _ ih =>
      cases slot with
      | none => simpa using ih
      | some same => simp [ih, same.pid, or_and_right, exists_or]

theorem Job.Updated.owns_iff {job job' : Job} (updated : job.Updated job') {pid : Int} :
    job'.Owns pid ↔ job.Owns pid := by
  unfold Job.Owns
  rw [updated.pgid, updated.subjobs.pid_iff]

/-- The processes that have been launched, in their order. -/
def Control.launched (control : Control) : List Int :=
  (control.trace.filterMap Event.forked?).map Prod.fst

/-- The process has been launched for a command with this command string. -/
def Control.LaunchedFor (control : Control) (commandString : CString) (pid : Int) : Prop :=
  ∃ child, .child child ∈ control.trace ∧ child.pid = pid ∧
    child.command.commandString = commandString

theorem Control.LaunchedFor.mem {control : Control} {commandString : CString} {pid : Int}
    (launched : control.LaunchedFor commandString pid) : pid ∈ control.launched := by
  obtain ⟨child, recorded, rfl, _⟩ := launched
  exact List.mem_map.mpr ⟨(child.pid, child.call), List.mem_filterMap.mpr ⟨_, recorded, rfl⟩, rfl⟩

theorem Control.LaunchedFor.mono {start finish : Control} {commandString : CString} {pid : Int}
    (launched : start.LaunchedFor commandString pid) (grows : start.trace <+: finish.trace) :
    finish.LaunchedFor commandString pid := by
  obtain ⟨child, recorded, same⟩ := launched
  exact ⟨child, grows.mem recorded, same⟩

theorem Recorded.launched {start finish : Control}
    (recorded : Recorded Event.Childless start.trace finish.trace) :
    finish.launched = start.launched := by
  obtain ⟨events, same, childless⟩ := recorded
  rw [Control.launched, same, List.filterMap_append, forked_of_childless childless,
    List.append_nil, Control.launched]

/-! ## Jobs apart from each other -/

/-- The processes of the jobs in the table have been launched for their commands, none for
two of them; and so have those of a job that is not in the table yet. -/
structure Apart (pending : Option Job) (control : Control) : Prop where
  consistent : control.table.Consistent
  launched : ∀ index job, control.table.slot index = some job → ∀ pid, job.Owns pid →
    control.LaunchedFor job.commandString pid
  apart : ∀ index index' job job', control.table.slot index = some job →
    control.table.slot index' = some job' → ∀ pid, job.Owns pid → job'.Owns pid → index = index'
  pendingLaunched : ∀ job ∈ pending, ∀ pid, job.Owns pid →
    control.LaunchedFor job.commandString pid
  pendingApart : ∀ job ∈ pending, ∀ pid, job.Owns pid → ∀ index job',
    control.table.slot index = some job' → ¬ job'.Owns pid

/-- The same, if the launched processes are different. -/
def ApartIfDistinct (pending : Option Job) (control : Control) : Prop :=
  control.launched.Nodup → Apart pending control

section Apart

variable {pending : Option Job} {start finish : Control}

/-- Jobs that are updated or removed keep apart. -/
theorem Apart.updated (apart : Apart pending start) (consistent : finish.table.Consistent)
    (updated : JobsUpdated start.table finish.table) (grows : start.trace <+: finish.trace) :
    Apart pending finish := by
  have origin : ∀ index job', finish.table.slot index = some job' →
      ∃ job, start.table.slot index = some job ∧ job.Updated job' := by
    intro index job' found
    cases before : start.table.slot index with
    | none =>
        rw [updated.empty index before] at found
        cases found
    | some job =>
        rcases updated.updated index job before with gone | ⟨other, present, same⟩
        · rw [gone] at found
          cases found
        · rw [present] at found
          cases found
          exact ⟨job, rfl, same⟩
  constructor
  · exact consistent
  · intro index job' found pid owns
    obtain ⟨job, before, same⟩ := origin index job' found
    rw [same.commandString]
    exact (apart.launched index job before pid (same.owns_iff.mp owns)).mono grows
  · intro index index' job job' found found' pid owns owns'
    obtain ⟨first, before, same⟩ := origin index job found
    obtain ⟨second, before', same'⟩ := origin index' job' found'
    exact apart.apart index index' first second before before' pid (same.owns_iff.mp owns)
      (same'.owns_iff.mp owns')
  · exact fun job member pid owns => (apart.pendingLaunched job member pid owns).mono grows
  · intro job member pid owns index job' found owns'
    obtain ⟨first, before, same⟩ := origin index job' found
    exact apart.pendingApart job member pid owns index first before (same.owns_iff.mp owns')

/-- A job enters the table. -/
theorem Apart.added {job : Job} (apart : Apart (some job) start) {id : Nat}
    (consistent : finish.table.Consistent) (added : JobAdded job id start.table finish.table)
    (grows : start.trace <+: finish.trace) : Apart none finish := by
  have origin : ∀ index job', finish.table.slot index = some job' →
      index = id - 1 ∧ job' = { job with id } ∨ start.table.slot index = some job' := by
    intro index job' found
    by_cases here : index = id - 1
    · subst here
      rw [added.entered] at found
      exact .inl ⟨rfl, (Option.some.inj found).symm⟩
    · rw [added.others index here] at found
      exact .inr found
  have owned : ∀ pid, ({ job with id } : Job).Owns pid ↔ job.Owns pid := fun _ => Iff.rfl
  constructor
  · exact consistent
  · intro index job' found pid owns
    rcases origin index job' found with ⟨_, rfl⟩ | before
    · exact (apart.pendingLaunched job rfl pid owns).mono grows
    · exact (apart.launched index job' before pid owns).mono grows
  · intro index index' first second found found' pid owns owns'
    rcases origin index first found with ⟨here, rfl⟩ | before
    · rcases origin index' second found' with ⟨here', _⟩ | before'
      · rw [here, here']
      · exact absurd owns' (apart.pendingApart job rfl pid owns index' second before')
    · rcases origin index' second found' with ⟨_, rfl⟩ | before'
      · exact absurd owns (apart.pendingApart job rfl pid owns' index first before)
      · exact apart.apart index index' first second before before' pid owns owns'
  · exact fun _ member => by cases member
  · exact fun _ member => by cases member

end Apart

/-! ## Job control -/

section Jobs

variable {environment : Environment} {pending : Option Job}

theorem ApartIfDistinct.course {start finish : Control}
    (course : Course (fun _ => False) start finish) :
    Preserves (ApartIfDistinct pending) start finish := by
  intro apart distinct
  have childless := course.recorded.mono fun _ => Event.OfJobs.childless
  rw [childless.launched] at distinct
  exact (apart distinct).updated (course.consistent (apart distinct).consistent)
    course.jobsUpdated childless.grows

theorem ApartIfDistinct.steps (environment : Environment) (pending : Option Job) :
    JobSteps environment (Preserves (ApartIfDistinct pending)) :=
  (Course.steps environment).mono fun _ _ => ApartIfDistinct.course

theorem ApartIfDistinct.record (event : Event) {start finish : Control}
    (childless : event.Childless) (apart : ApartIfDistinct pending start)
    (table : finish.table = start.table) (trace : finish.trace = start.trace ++ [event]) :
    ApartIfDistinct pending finish := by
  intro distinct
  have recorded : Recorded Event.Childless start.trace finish.trace :=
    ⟨[event], trace, by simpa using childless⟩
  rw [recorded.launched] at distinct
  have same : JobsUpdated start.table finish.table := table ▸ .refl _
  exact (apart distinct).updated (table ▸ (apart distinct).consistent) same recorded.grows

theorem executeInternalCommand_apart (call : CommandCall) :
    Moves (OnControl (Preserves (ApartIfDistinct pending)))
      (executeInternalCommand environment call) :=
  RunInvariant.executeInternalCommand (ApartIfDistinct.steps environment pending)
    ApartIfDistinct.record call

end Jobs

/-! ## Launching -/

section Launching

variable {environment : Environment} {command : Command}

/-- A process that has been launched belongs to no job of the table. -/
theorem Apart.child {start finish : Control} {job job' : Job} {child : Child}
    (apart : Apart (some job) start) (table : finish.table = start.table)
    (grows : start.trace <+: finish.trace) (recorded : .child child ∈ finish.trace)
    (new : child.pid ∉ start.launched) (named : job.commandString = child.command.commandString)
    (named' : job'.commandString = job.commandString)
    (owns : ∀ pid, job'.Owns pid → job.Owns pid ∨ pid = child.pid) : Apart (some job') finish where
  consistent := table ▸ apart.consistent
  launched index other found pid owned := by
    rw [table] at found
    exact (apart.launched index other found pid owned).mono grows
  apart index index' first second found found' := by
    rw [table] at found found'
    exact apart.apart index index' first second found found'
  pendingLaunched other member pid owned := by
    cases member
    rw [named']
    rcases owns pid owned with before | rfl
    · exact (apart.pendingLaunched job rfl pid before).mono grows
    · exact ⟨child, recorded, rfl, named.symm⟩
  pendingApart other member pid owned index second found owned' := by
    cases member
    rw [table] at found
    rcases owns pid owned with before | rfl
    · exact apart.pendingApart job rfl pid before index second found owned'
    · exact new (apart.launched index second found _ owned').mem

/-- The job table is the same. -/
def SameTable (start finish : Control) : Prop := finish.table = start.table

instance : Std.Refl SameTable where
  refl _ := rfl

instance : IsTrans Control SameTable where
  trans _ _ _ before after := after.trans before

theorem SameTable.forkSteps (environment : Environment) :
    ForkSteps environment (OnControl SameTable) where
  outcome _ _ := rfl
  kill _ _ _ := rfl
  child _ _ := rfl
  close _ _ := rfl

theorem executeSingleCommand_sameTable {call : CommandCall} (job : Job)
    (external : isInternalCommand call = false) :
    Moves (OnControl SameTable) (executeSingleCommand environment command call job) := by
  apply executeSingleCommand_parts
  · intro internal
    rw [external] at internal
    cases internal
  · exact fun _ => rfl
  · exact fun _ => rfl
  · exact (SameTable.forkSteps environment).forkCall command call job

/-- Only processes are launched. -/
theorem ApartIfDistinct.launchSteps (environment : Environment) :
    LaunchSteps environment (OnControl (Preserves (ApartIfDistinct none))) where
  silent silently shell same := by
    subst same
    exact ApartIfDistinct.course (.single (.quiet silently.quietly))
  kernel _ _ := id
  call call _ apart := apart.record (.call call) trivial rfl rfl
  child child shell apart distinct := by
    have grows : shell.control.trace <+: shell.control.trace ++ [.child child] :=
      List.prefix_append _ _
    have before : shell.control.launched.Nodup := by
      refine distinct.sublist ?_
      rw [Control.launched, Control.launched, List.filterMap_append, List.map_append]
      exact List.sublist_append_left _ _
    exact (apart before).updated (apart before).consistent (.refl _) grows
  internal := executeInternalCommand_apart

/-- A job with a process more owns that process more. -/
theorem Job.owns_set (job : Job) (pid : Int) (index : Nat) (call : CommandCall) (other : Int)
    (owns : ({ job with
      pgid := if job.pgid = 0 then pid else job.pgid
      subjobs := job.subjobs.set index (some (newSubjob call pid .running)) } : Job).Owns other) :
    job.Owns other ∨ other = pid := by
  rcases owns with ⟨leads, positive⟩ | ⟨subjob, member, same⟩
  · dsimp only at leads
    split at leads
    · exact .inr leads
    · exact .inl (.inl ⟨leads, positive⟩)
  · cases List.mem_or_eq_of_mem_set member with
    | inl before => exact .inl (.inr ⟨subjob, before, same⟩)
    | inr new =>
        cases new
        exact .inr same.symm

/-- The processes of a command that are launched are those of its job. -/
theorem executeCalls_apart (calls : List CommandCall) :
    ∀ {index : Nat} {info : Option InternalExitInfo} {job job' : Job} {launched : InternalExitInfo}
      {start finish : Shell}, job.commandString = command.commandString →
      executeCalls environment command index info job calls start =
        .ok (some launched, job') finish →
      ApartIfDistinct (some job) start.control → ApartIfDistinct (some job') finish.control := by
  induction calls with
  | nil =>
      intro index info job job' launched start finish _ ran apart
      cases ran
      exact apart
  | cons call rest ih =>
      intro index info job job' launched start finish named ran apart
      obtain ⟨⟨first, job₁⟩, state, single, continued⟩ := bind_eq_ok.mp ran
      cases first with
      | none =>
          dsimp only at continued
          split at continued
          · obtain ⟨_, _, _, same⟩ := bind_eq_ok.mp continued
            cases same
          · cases continued
      | some first =>
          dsimp only at continued
          cases external : isInternalCommand call with
          | true =>
              rcases executeSingleCommand_ok single with
                ⟨_, noPid, executed, rfl⟩ | ⟨external', _⟩
              · rw [if_neg (not_not.mpr noPid)] at continued
                exact ih named continued
                  ((executeInternalCommand_apart call start).of_ok executed apart)
              · rw [external] at external'
                cases external'
          | false =>
              obtain ⟨pid, _, rfl, descriptors, trace⟩ :=
                executeSingleCommand_forked external single
              have different : first.pid ≠ uninitializedPid := by
                unfold uninitializedPid
                omega
              rw [if_pos different] at continued
              refine ih ?_ continued fun distinct => ?_
              · exact named
              · have added : state.control.launched = start.control.launched ++ [first.pid] := by
                  rw [Control.launched, trace, List.append_assoc, List.filterMap_append,
                    List.map_append]
                  rfl
                rw [added, List.nodup_append] at distinct
                obtain ⟨before, _, new⟩ := distinct
                have table : SameTable start.control state.control :=
                  (executeSingleCommand_sameTable job external start).of_ok single
                have grows : start.control.trace <+: state.control.trace := by
                  rw [trace, List.append_assoc]
                  exact List.prefix_append _ _
                have recorded : .child { pid := first.pid, command, call, descriptors } ∈
                    state.control.trace := by
                  rw [trace]
                  exact List.mem_append_right _ (.head _)
                have fresh : first.pid ∉ start.control.launched :=
                  fun old => new _ old _ (.head _) rfl
                exact (apart before).child table grows recorded fresh named rfl
                  (job.owns_set first.pid index call)

theorem Job.Updated.apart {job job' : Job} (updated : job.Updated job') {control : Control}
    (apart : ApartIfDistinct (some job) control) : ApartIfDistinct (some job') control := by
  intro distinct
  have before := apart distinct
  constructor
  · exact before.consistent
  · exact before.launched
  · exact before.apart
  · intro other member pid owns
    cases member
    rw [updated.commandString]
    exact before.pendingLaunched job rfl pid (updated.owns_iff.mp owns)
  · intro other member pid owns
    cases member
    exact before.pendingApart job rfl pid (updated.owns_iff.mp owns)

theorem keepJob_apart {info : InternalExitInfo} {job : Job} {start finish : Control}
    {result : CommandResult} (ran : keepJob info job start = .ok result finish)
    (apart : ApartIfDistinct (some job) start) : ApartIfDistinct none finish := by
  intro distinct
  have moves : Moves (Course fun _ => True) (keepJob info job) := keepJob_moves trivial info
  have course := (moves start).of_ok ran
  have childless := course.recorded.mono fun _ => Event.OfJobs.childless
  rw [childless.launched] at distinct
  obtain ⟨id, added⟩ := keepJob_ok (apart distinct).consistent ran
  exact (apart distinct).added (course.consistent (apart distinct).consistent) added
    childless.grows

/-- A job without processes owns none. -/
theorem Apart.setup {control : Control} (apart : Apart none control) (command : Command) :
    Apart (some (setupJob command)) control := by
  have none : ∀ pid, ¬ (setupJob command).Owns pid := by
    rintro pid (⟨leads, positive⟩ | ⟨subjob, member, _⟩)
    · exact positive leads
    · cases List.eq_of_mem_replicate member
  constructor
  · exact apart.consistent
  · exact apart.launched
  · exact apart.apart
  · intro job member pid owns
    cases member
    exact absurd owns (none pid)
  · intro job member pid owns
    cases member
    exact absurd owns (none pid)

theorem executeExternalCommand_apart {result : CommandResult} {start finish : Shell}
    (ran : executeExternalCommand environment command start = .ok result finish)
    (apart : ApartIfDistinct none start.control) : ApartIfDistinct none finish.control := by
  obtain ⟨⟨info, job⟩, launched, launch, rest⟩ := bind_eq_ok.mp ran
  have dropped : ApartIfDistinct none launched.control :=
    ((ApartIfDistinct.launchSteps environment).executeCalls command command.commandCalls 0 none
      (setupJob command) start).of_ok launch apart
  cases info with
  | none =>
      obtain ⟨_, _, closing, rest⟩ := bind_eq_ok.mp rest
      cases closing
      cases rest
      exact dropped
  | some info =>
      have owned : ApartIfDistinct (some job) launched.control :=
        executeCalls_apart command.commandCalls rfl launch fun distinct =>
          (apart distinct).setup command
      cases background : command.background with
      | true =>
          exact keepJob_apart (executeExternalCommand_background launch ran background) owned
      | false =>
          have course := executeExternalCommand_launched launch ran
          have childless := course.recorded.mono fun _ => Event.OfJobs.childless
          obtain ⟨all, subjobs, pids, waited, ended⟩ :=
            executeExternalCommand_foreground launch ran background
          intro distinct
          rw [childless.launched] at distinct
          have consistent := course.consistent (dropped distinct).consistent
          have unkept : finish.control.table = launched.control.table →
              Apart none finish.control := fun table =>
            (dropped distinct).updated consistent (table ▸ .refl _) childless.grows
          rcases ended with ⟨_, _, table⟩ | ⟨_, _, _, table⟩ | ⟨_, _, control, table, keeps⟩
          · exact unkept table
          · exact unkept table
          · have sameTable := (dropped distinct).consistent
            rw [← table] at sameTable
            obtain ⟨id, added⟩ := keepJob_ok sameTable keeps
            rw [table] at added
            have updated : job.Updated (({ job with subjobs } : Job).assessed environment
                (launched.control.waited pids)) := ⟨rfl, rfl, rfl, waited.updated⟩
            exact (updated.apart owned distinct).added consistent added childless.grows

end Launching

/-! ## Runs of the shell -/

theorem ApartIfDistinct.invariant (environment : Environment) :
    RunInvariant environment (ApartIfDistinct none) where
  jobs := ApartIfDistinct.steps environment none
  event := ApartIfDistinct.record
  external := executeExternalCommand_apart

/-- As long as no process is returned by two calls of `fork`: whenever the shell is about to
read a line, every process of a job in the table has been launched for the command of that
job, and belongs to no other job; so no two jobs share a process group. -/
theorem jobs_own_their_processes {environment : Environment} {cwd : CString}
    {inputs : List (Option CString)} {finish : Shell}
    (ran : prompt environment inputs (initInternals cwd) = .ok ⟨⟩ finish)
    (distinct : finish.control.launched.Nodup) {index : Nat} {job : Job}
    (found : finish.control.table.slot index = some job) {pid : Int} (owns : job.Owns pid) :
    finish.control.LaunchedFor job.commandString pid ∧
      ∀ index' job', finish.control.table.slot index' = some job' → job'.Owns pid →
        index' = index := by
  have started : ApartIfDistinct none (initInternals cwd).control := by
    intro _
    have empty : ∀ index, (initInternals cwd).control.table.slot index = none := by
      intro index
      simp only [initInternals, initJobTable, JobTable.slot, List.getD_eq_getElem?_getD,
        List.getElem?_replicate]
      split <;> rfl
    constructor
    · exact consistent_initJobTable
    · intro index job found
      rw [empty] at found
      cases found
    · intro index index' job job' found
      rw [empty] at found
      cases found
    · exact fun _ member => by cases member
    · exact fun _ member => by cases member
  have apart := (ApartIfDistinct.invariant environment).prompt inputs ran started distinct
  exact ⟨apart.launched index job found pid owns, fun index' job' found' owns' =>
    apart.apart index' index job' job found' found pid owns' owns⟩

/-- Two pipelines in the background. -/
theorem sleeping_jobs_own_their_processes :
    ∃ finish job, prompt .sleeping [some "sleep 5 | cat & sleep 6 | cat &".toList]
        (initInternals "/".toList) = .ok ⟨⟩ finish ∧
      finish.control.table.slot 1 = some job ∧ job.Owns job.pgid ∧
      ∀ index job', finish.control.table.slot index = some job' → job'.pgid = job.pgid →
        index = 1 := by
  obtain ⟨_, finish, ran, checked⟩ := exists_of_returns
    (show returns (fun _ (finish : Shell) => decide finish.control.launched.Nodup &&
        (finish.control.table.slot 1).any fun job => decide (0 < job.pgid))
      (prompt .sleeping [some "sleep 5 | cat & sleep 6 | cat &".toList]
        (initInternals "/".toList)) = true by decide +kernel)
  obtain ⟨distinct, leader⟩ := Bool.and_eq_true_iff.mp checked
  obtain ⟨job, found, positive⟩ := (Option.any_eq_true _ _).mp leader
  have positive := of_decide_eq_true positive
  have owns : job.Owns job.pgid := .inl ⟨rfl, by omega⟩
  have apart := jobs_own_their_processes ran (of_decide_eq_true distinct) found owns
  refine ⟨finish, job, ran, found, owns, fun index job' found' same => ?_⟩
  exact apart.2 index job' found' (.inl ⟨same.symm, by omega⟩)

end Jsh
