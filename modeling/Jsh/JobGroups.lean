import Mathlib.Data.List.ReduceOption
import Jsh.Launching
import Jsh.JobTable
import Jsh.Runs

/-!
# Process groups of jobs

Which jobs enter the job table with a process group of their own.
-/

set_option autoImplicit false

namespace Jsh

open Library

/-! ## Jobs that are launched -/

/-- A process has been launched for the job. -/
def Job.HasSubjob (job : Job) : Prop := ∃ subjob : Subjob, some subjob ∈ job.subjobs

/-- The job has its own process group, with at least one launched process. -/
structure Job.Launched (job : Job) : Prop where
  pgid : 0 < job.pgid
  subjob : job.HasSubjob

/-- A job has a process group as soon as it has a process. -/
structure Job.Grouped (job : Job) : Prop where
  nonnegative : 0 ≤ job.pgid
  pgid : job.HasSubjob → 0 < job.pgid

theorem SubjobsUpdated.exists_iff {subjobs subjobs' : List (Option Subjob)}
    (updated : SubjobsUpdated subjobs subjobs') :
    (∃ subjob, some subjob ∈ subjobs') ↔ ∃ subjob, some subjob ∈ subjobs := by
  induction updated with
  | nil => rfl
  | cons slot _ ih =>
      cases slot with
      | none => simpa using ih
      | some _ => simp

theorem Job.Updated.hasSubjob {job job' : Job} (updated : job.Updated job') :
    job'.HasSubjob ↔ job.HasSubjob := updated.subjobs.exists_iff

theorem Job.Updated.launched {job job' : Job} (updated : job.Updated job')
    (launched : job.Launched) : job'.Launched :=
  ⟨updated.pgid ▸ launched.pgid, updated.hasSubjob.mpr launched.subjob⟩

theorem Job.hasSubjob_of_status {job : Job} {status : JobStatus} (recorded : status ∈ job.statuses) :
    job.HasSubjob := by
  obtain ⟨subjob, member, _⟩ := List.mem_map.mp recorded
  exact ⟨subjob, List.reduceOption_mem_iff.mp member⟩

/-- A job without processes is finished. -/
theorem Job.hasSubjob_of_unfinished {job : Job} (unfinished : isJobFinished job = false) :
    job.HasSubjob := by
  obtain ⟨status, recorded, _⟩ := List.all_eq_false.mp unfinished
  exact Job.hasSubjob_of_status recorded

/-! ## Launching -/

theorem Job.hasSubjob_set (job : Job) {index : Nat} (inside : index < job.subjobs.length)
    (subjob : Subjob) :
    ({ job with subjobs := job.subjobs.set index (some subjob) } : Job).HasSubjob :=
  ⟨subjob, List.mem_iff_getElem.mpr ⟨index, by simpa using inside, by simp⟩⟩

/-- The job of a command whose calls have all been executed: it has a process if one of
the calls is no built-in. -/
theorem executeCalls_ok {environment : Environment} {command : Command} {calls : List CommandCall} :
    ∀ {index : Nat} {info : Option InternalExitInfo} {job job' : Job} {launched : InternalExitInfo}
      {start finish : Shell},
      executeCalls environment command index info job calls start =
        .ok (some launched, job') finish →
      index + calls.length ≤ job.subjobs.length → job.Grouped →
      job'.Grouped ∧ (job.HasSubjob → job'.HasSubjob) ∧
        ((∃ call ∈ calls, isInternalCommand call = false) → job'.HasSubjob) := by
  induction calls with
  | nil =>
      intro index info job job' launched start finish ran _ grouped
      cases ran
      exact ⟨grouped, fun has => has, by simp⟩
  | cons call rest ih =>
      intro index info job job' launched start finish ran room grouped
      rw [List.length_cons] at room
      obtain ⟨⟨first, job₁⟩, state, single, continued⟩ := bind_eq_ok.mp ran
      cases first with
      | none =>
          dsimp only at continued
          split at continued
          · obtain ⟨_, _, _, same⟩ := bind_eq_ok.mp continued
            cases same
          · cases continued
      | some first =>
          dsimp only at continued
          rcases executeSingleCommand_ok single with
            ⟨internal, noPid, _, rfl⟩ | ⟨external, pid, _, rfl⟩
          · rw [if_neg (not_not.mpr noPid)] at continued
            obtain ⟨grouped', kept, launches⟩ := ih continued (by omega) grouped
            refine ⟨grouped', kept, ?_⟩
            rintro ⟨other, member, external⟩
            rcases List.mem_cons.mp member with rfl | later
            · rw [internal] at external
              cases external
            · exact launches ⟨other, later, external⟩
          · have different : first.pid ≠ uninitializedPid := by
              unfold uninitializedPid
              omega
            rw [if_pos different] at continued
            have positive : 0 < if job.pgid = 0 then first.pid else job.pgid := by
              have := grouped.nonnegative
              split <;> omega
            have has := Job.hasSubjob_set
              { job with pgid := if job.pgid = 0 then first.pid else job.pgid }
              (show index < job.subjobs.length by omega) (newSubjob call first.pid .running)
            have room' : index + 1 + rest.length ≤
                (job.subjobs.set index (some (newSubjob call first.pid .running))).length := by
              rw [List.length_set]
              omega
            obtain ⟨grouped', kept, _⟩ := ih continued room'
              ⟨Int.le_of_lt positive, fun _ => positive⟩
            exact ⟨grouped', fun _ => kept has, fun _ => kept has⟩

/-- A background command that is made of built-ins only. -/
def Command.Groupless (command : Command) : Prop :=
  command.background = true ∧ ∀ call ∈ command.commandCalls, isInternalCommand call = true

theorem grouped_setupJob (command : Command) : (setupJob command).Grouped where
  nonnegative := Int.le_refl 0
  pgid := by
    rintro ⟨subjob, member⟩
    cases List.eq_of_mem_replicate member

/-- A job that is kept has a process group with a process, unless its command runs in
the background and is made of built-ins. -/
theorem executeExternalCommand_moves (environment : Environment) (command : Command) :
    Moves (ShellCourse fun job => job.Launched ∨ command.Groupless)
      (executeExternalCommand environment command) := by
  intro start
  have room : 0 + command.commandCalls.length ≤ (setupJob command).subjobs.length := by
    simp [setupJob, newJob]
  apply executeExternalCommand_course
  · intro background info job launched launch
    obtain ⟨grouped, _, launches⟩ := executeCalls_ok launch room (grouped_setupJob command)
    by_cases external : ∃ call ∈ command.commandCalls, isInternalCommand call = false
    · exact .inl ⟨grouped.pgid (launches external), launches external⟩
    · exact .inr ⟨background, by simpa using external⟩
  · intro _ info job launched launch job' updated alive
    obtain ⟨grouped, _, _⟩ := executeCalls_ok launch room (grouped_setupJob command)
    have has := updated.hasSubjob.mp (Job.hasSubjob_of_unfinished alive)
    exact .inl (updated.launched ⟨grouped.pgid has, has⟩)

theorem runCommand_moves (environment : Environment) (command : Command) :
    Moves (ShellCourse fun job =>
        job.Launched ∨ command.Groupless ∧ command.commandCalls.length ≠ 1)
      (runCommand environment command) := by
  intro start
  apply runCommand_course
  intro several
  refine ((executeExternalCommand_moves environment command).mono fun _ _ course => ?_) start
  refine Relation.ReflTransGen.mono
    (fun _ _ moved => ShellMove.mono moved fun job allowed => ?_) _ _ course
  refine allowed.imp_right fun groupless => ⟨groupless, fun one => ?_⟩
  obtain ⟨call, single⟩ := List.length_eq_one_iff.mp one
  exact several call (groupless.2 call (by simp [single])) single

/-! ## The invariant of the run -/

/-- At every moment each job in the table has a process group of its own, and the
signals sent to a job have gone there. -/
structure JobsGrouped (control : Control) : Prop where
  table : ∀ job ∈ control.table.jobs, job.Launched
  tables : ∀ table, .table table ∈ control.trace → ∀ job ∈ table.jobs, job.Launched
  signals : ∀ job target signal, .signalJob job target signal ∈ control.trace →
    job.Launched ∧ target = -job.pgid

section Invariant

variable {added : Job → Prop}

/-- Events that say nothing about the table and about signals to jobs. -/
theorem JobsGrouped.record {control : Control} (grouped : JobsGrouped control)
    {events : List Event} {calls : Nat}
    (silent : ∀ event ∈ events, (∀ table, event ≠ .table table) ∧
      ∀ job target signal, event ≠ .signalJob job target signal) :
    JobsGrouped { control with trace := control.trace ++ events, calls } where
  table := grouped.table
  tables := by
    intro table member
    rcases List.mem_append.mp member with old | new
    · exact grouped.tables table old
    · exact absurd rfl ((silent _ new).1 table)
  signals := by
    intro job target signal member
    rcases List.mem_append.mp member with old | new
    · exact grouped.signals job target signal old
    · exact absurd rfl ((silent _ new).2 job target signal)

theorem Move.jobsGrouped {start finish : Control} (moved : Move added start finish)
    (launched : ∀ job, added job → job.Launched) (grouped : JobsGrouped start) :
    JobsGrouped finish := by
  have held : TablesHold (fun table => ∀ job ∈ table.jobs, job.Launched) start :=
    ⟨grouped.table, grouped.tables⟩
  have held' := moved.tablesHold (moved.jobs (fun updated => updated.launched)
    (fun _ allowed => ⟨(launched _ allowed).pgid, (launched _ allowed).subjob⟩)) held
  refine ⟨held'.table, held'.tables, fun job target signal sent => ?_⟩
  have stored : ∀ table, .signalJob job target signal ∈ (start.store table).trace →
      job.Launched ∧ target = -job.pgid := by
    intro table sent
    rcases List.mem_append.mp sent with old | new
    · exact grouped.signals job target signal old
    · cases List.mem_singleton.mp new
  cases moved with
  | quiet quietly =>
      obtain ⟨events, grown, quiet⟩ := quietly.trace
      rw [grown] at sent
      rcases List.mem_append.mp sent with old | new
      · exact grouped.signals job target signal old
      · exact (quiet _ new).elim
  | signal number found =>
      rcases List.mem_append.mp sent with old | new
      · exact grouped.signals job target signal old
      · cases List.mem_singleton.mp new
        exact ⟨grouped.table _ (JobTable.mem_jobs_of_slot found), rfl⟩
  | update _ _ | remove _ | grow _ _ _ _ | add _ _ => exact stored _ sent

theorem Course.jobsGrouped {start finish : Control} (course : Course added start finish)
    (launched : ∀ job, added job → job.Launched) (grouped : JobsGrouped start) :
    JobsGrouped finish := by
  induction course with
  | refl => exact grouped
  | tail _ moved ih => exact moved.jobsGrouped launched ih

theorem ShellCourse.jobsGrouped {start finish : Shell} (course : ShellCourse added start finish)
    (launched : ∀ job, added job → job.Launched) (grouped : JobsGrouped start.control) :
    JobsGrouped finish.control := by
  refine course.preserves JobsGrouped (fun moved grouped => moved.jobsGrouped launched grouped) ?_ grouped
  intro control event ofCalls grouped
  refine grouped.record fun other member => ?_
  cases List.mem_singleton.mp member
  cases event <;> simp [Event.OfCalls] at ofCalls ⊢

end Invariant

/-! ## Runs of the shell -/

/-- A background command that is made of several built-ins has been executed. -/
def GrouplessCommand (trace : List Event) : Prop :=
  ∃ command later, Event.command command later ∈ trace ∧ command.Groupless ∧
    command.commandCalls.length ≠ 1

/-- The trace only grows, and jobs stay in groups of their own. -/
structure Steady (start finish : Shell) : Prop where
  trace : start.control.trace <+: finish.control.trace
  grouped : JobsGrouped start.control → JobsGrouped finish.control

instance : Std.Refl Steady where
  refl _ := ⟨List.prefix_refl _, id⟩

instance : IsTrans Shell Steady where
  trans _ _ _ before after :=
    ⟨before.trace.trans after.trace, fun grouped => after.grouped (before.grouped grouped)⟩

/-- The same, unless a background command made of several built-ins has been executed. -/
structure Watched (start finish : Shell) : Prop where
  trace : start.control.trace <+: finish.control.trace
  grouped : GrouplessCommand start.control.trace ∨ JobsGrouped start.control →
    GrouplessCommand finish.control.trace ∨ JobsGrouped finish.control

instance : Std.Refl Watched where
  refl _ := ⟨List.prefix_refl _, id⟩

instance : IsTrans Shell Watched where
  trans _ _ _ before after :=
    ⟨before.trace.trans after.trace, fun grouped => after.grouped (before.grouped grouped)⟩

theorem GrouplessCommand.mono {before after : List Event} (grows : before <+: after)
    (ran : GrouplessCommand before) : GrouplessCommand after := by
  obtain ⟨command, later, member, groupless⟩ := ran
  exact ⟨command, later, grows.subset member, groupless⟩

theorem Steady.watched {start finish : Shell} (steady : Steady start finish) :
    Watched start finish :=
  ⟨steady.trace, Or.imp (.mono steady.trace) steady.grouped⟩

theorem ShellCourse.grows {added : Job → Prop} {start finish : Shell}
    (course : ShellCourse added start finish) :
    start.control.trace <+: finish.control.trace :=
  course.recorded.grows

theorem Calm.steady {start finish : Shell} (calm : Calm start finish) : Steady start finish :=
  ⟨calm.course.recorded.grows, calm.course.jobsGrouped fun _ => False.elim⟩

theorem record_steady {event : Event}
    (silent : (∀ table, event ≠ .table table) ∧ ∀ job target signal, event ≠ .signalJob job target signal) :
    Moves Steady (liftJob (record event)) :=
  fun _ => ⟨⟨[event], rfl⟩, fun grouped => grouped.record (by simpa using silent)⟩

/-- The trace only grows. -/
def Grows (start finish : Shell) : Prop := start.control.trace <+: finish.control.trace

instance : Std.Refl Grows where
  refl _ := List.prefix_refl _

instance : IsTrans Shell Grows where
  trans _ _ _ before after := List.IsPrefix.trans before after

theorem executeCommand_grows (environment : Environment) (command : Command) :
    Moves Grows (executeCommand environment command) := fun start =>
  executeCommand_ends
    (((runCommand_moves environment command).mono fun _ _ course => course.grows) start)
    (fun _ _ => List.prefix_refl _) (fun exitCode _ => ⟨[.result exitCode], rfl⟩)

theorem executeCommand_steady (environment : Environment) {command : Command}
    (apart : ¬ (command.Groupless ∧ command.commandCalls.length ≠ 1)) :
    Moves Steady (executeCommand environment command) := by
  intro start
  have ran : Moves Steady (runCommand environment command) :=
    (runCommand_moves environment command).mono fun _ _ course =>
      ⟨course.grows, course.jobsGrouped fun job allowed => allowed.resolve_right apart⟩
  refine executeCommand_ends (ran start) (fun _ _ => ⟨List.prefix_refl _, id⟩) fun exitCode shell => ?_
  have recorded : Moves Steady (liftJob (record (.result exitCode))) := record_steady (by simp)
  have moved := recorded shell
  exact ⟨moved.trace, moved.grouped⟩

theorem executeCommand_watched (environment : Environment) {command : Command}
    {later : List (Option Command)} {start : Shell}
    (recorded : Event.command command later ∈ start.control.trace) :
    Ends (Watched start) start (executeCommand environment command) := by
  by_cases groupless : command.Groupless ∧ command.commandCalls.length ≠ 1
  · have grows := executeCommand_grows environment command start
    exact ⟨grows, fun _ => .inl ⟨command, later, grows.subset recorded, groupless⟩⟩
  · exact (executeCommand_steady environment groupless start).watched

theorem readLine_steady (environment : Environment) (line : CString) :
    Moves Steady (readLine environment line) :=
  Moves.get.bind fun _ => (record_steady (by simp)).bind fun _ =>
    .modifyGet fun _ => ⟨List.prefix_refl _, id⟩

theorem prompt_watched (environment : Environment) (inputs : List (Option CString)) :
    Moves Watched (prompt environment inputs) := by
  refine prompt_moves ((Calm.steps environment).mono fun _ _ calm => calm.steady.watched)
    (fun event start outer => ?_)
    (fun line => (readLine_steady environment line).mono fun _ _ moved => moved.watched)
    (fun command later start => ?_) inputs
  · exact ((record_steady (by cases event <;> simp [Event.OfLoop] at outer ⊢)) start).watched
  · have recorded : Event.command command later ∈
        (start.recording (.command command later)).control.trace :=
      List.mem_append_right _ (.head _)
    exact executeCommand_watched environment recorded

/-- In a run without a background command made of several built-ins, at every moment
each job in the table has a process group of its own and a launched process, and every
signal to a job has gone to its process group. -/
theorem jobs_have_process_groups (environment : Environment) (cwd : CString)
    (inputs : List (Option CString)) :
    let final := finalState (prompt environment inputs (initInternals cwd))
    (∀ command later, .command command later ∈ final.control.trace → command.background = true →
        command.commandCalls.length ≠ 1 →
        ∃ call ∈ command.commandCalls, isInternalCommand call = false) →
      (∀ table, table = final.control.table ∨ .table table ∈ final.control.trace →
          ∀ job ∈ table.jobs, 0 < job.pgid ∧ ∃ subjob, some subjob ∈ job.subjobs) ∧
        ∀ job target signal, .signalJob job target signal ∈ final.control.trace →
          0 < job.pgid ∧ target = -job.pgid := by
  intro final launching
  have start : JobsGrouped (initInternals cwd).control := by
    refine ⟨fun job member => ?_, by simp [initInternals], by simp [initInternals]⟩
    rw [JobTable.mem_jobs] at member
    cases List.eq_of_mem_replicate member
  have grouped : JobsGrouped final.control := by
    refine ((prompt_watched environment inputs (initInternals cwd)).grouped (.inr start)).resolve_left ?_
    rintro ⟨command, later, ran, ⟨background, internal⟩, several⟩
    obtain ⟨call, member, external⟩ := launching command later ran background several
    rw [internal call member] at external
    cases external
  refine ⟨?_, fun job target signal sent => ?_⟩
  · rintro table (rfl | recorded) job member
    · have launched := grouped.table job member
      exact ⟨launched.pgid, launched.subjob⟩
    · have launched := grouped.tables table recorded job member
      exact ⟨launched.pgid, launched.subjob⟩
  · have ⟨launched, same⟩ := grouped.signals job target signal sent
    exact ⟨launched.pgid, same⟩

/-- A pipeline of two processes is put in the background and killed. -/
theorem killed_pipeline_has_process_group :
    let final := finalState (prompt .exiting [some "sleep 5 | cat & kill %1".toList]
      (initInternals "/".toList))
    (∀ job ∈ final.control.table.jobs, 0 < job.pgid) ∧
      ∀ job target signal, .signalJob job target signal ∈ final.control.trace →
        target = -job.pgid := by
  intro final
  have launching : (final.control.trace.all fun
      | .command command _ => !command.background || command.commandCalls.length == 1 ||
          command.commandCalls.any (!isInternalCommand ·)
      | _ => true) = true := by decide +kernel
  have grouped := jobs_have_process_groups .exiting "/".toList
    [some "sleep 5 | cat & kill %1".toList] (by
      intro command later ran background several
      have launches := List.all_eq_true.mp launching _ ran
      simpa [background, several] using launches)
  exact ⟨fun job member => (grouped.1 _ (.inl rfl) job member).1,
    fun job target signal sent => (grouped.2 job target signal sent).2⟩

/-- Two built-ins in the background make a job without process group, and a signal to
it goes to the process group of the shell. -/
theorem builtins_in_background_signal_shell :
    let final := finalState (prompt .exiting [some "cd | pwd & kill -9 %1".toList]
      (initInternals "/".toList))
    ∃ job : Job, job ∈ final.control.table.jobs ∧ job.pgid = 0 ∧ job.subjobs = [none, none] ∧
      .signalJob job 0 9 ∈ final.control.trace :=
  ⟨{ newJob 2 "cd | pwd".toList with id := 1 }, by decide +kernel, rfl, rfl, by decide +kernel⟩

end Jsh
