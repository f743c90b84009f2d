import Mathlib.Logic.Relation
import Jsh.Library.StateRuns
import Jsh.Jobs

/-!
# What job control does to the job table

Every function of job control moves the state by steps of a few kinds. The functions
that wait, print and send signals leave the job table as it is.
-/

set_option autoImplicit false

namespace Jsh

open Library

/-! ## Traces -/

/-- Only events of one kind have been recorded after a trace. -/
def Recorded (allowed : Event → Prop) (before after : List Event) : Prop :=
  ∃ events : List Event, after = before ++ events ∧ ∀ event ∈ events, allowed event

section Recorded

variable {allowed weaker : Event → Prop}

instance : Std.Refl (Recorded allowed) where
  refl _ := ⟨[], by simp, by simp⟩

instance : IsTrans (List Event) (Recorded allowed) where
  trans := by
    rintro first _ _ ⟨events, rfl, all⟩ ⟨events', rfl, all'⟩
    refine ⟨events ++ events', by rw [List.append_assoc], fun event member => ?_⟩
    exact (List.mem_append.mp member).elim (all event) (all' event)

theorem Recorded.single (before : List Event) {event : Event} (fits : allowed event) :
    Recorded allowed before (before ++ [event]) := ⟨[event], rfl, by simpa using fits⟩

theorem Recorded.grows {before after : List Event} (recorded : Recorded allowed before after) :
    before <+: after := by
  obtain ⟨events, grown, _⟩ := recorded
  exact ⟨events, grown.symm⟩

theorem Recorded.mono {before after : List Event} (recorded : Recorded allowed before after)
    (implies : ∀ event, allowed event → weaker event) : Recorded weaker before after := by
  obtain ⟨events, grown, all⟩ := recorded
  exact ⟨events, grown, fun event member => implies event (all event member)⟩

end Recorded

/-- The events of functions that leave the job table as it is. -/
def Event.Quiet : Event → Prop
  | .print _ _ | .waitpid _ | .kill _ _ | .tcsetpgrp _ => True
  | _ => False

/-- The events of functions that do not wait either. -/
def Event.Silent : Event → Prop
  | .print _ _ | .kill _ _ | .tcsetpgrp _ => True
  | _ => False

/-- The events of job control. -/
def Event.OfJobs : Event → Prop
  | .table _ | .signalJob _ _ _ => True
  | event => event.Quiet

theorem Event.Silent.quiet {event : Event} (silent : event.Silent) : event.Quiet := by
  cases event <;> first | exact silent | trivial

theorem Event.Quiet.ofJobs {event : Event} (quiet : event.Quiet) : event.OfJobs := by
  cases event <;> first | exact quiet | trivial

/-! ## Quiet functions -/

/-- The table is the same and only quiet events have been recorded. -/
structure Quietly (start finish : Control) : Prop where
  table : finish.table = start.table
  trace : Recorded Event.Quiet start.trace finish.trace

instance : Std.Refl Quietly where
  refl _ := ⟨rfl, refl_of (Recorded _) _⟩

instance : IsTrans Control Quietly where
  trans _ _ _ before after :=
    ⟨after.table.trans before.table, trans_of (Recorded _) before.trace after.trace⟩

theorem record_moves (event : Event) (quiet : event.Quiet) : Moves Quietly (record event) :=
  .modify fun _ => ⟨rfl, .single _ quiet⟩

/-- The same for silent events. -/
structure Silently (start finish : Control) : Prop where
  table : finish.table = start.table
  trace : Recorded Event.Silent start.trace finish.trace

instance : Std.Refl Silently where
  refl _ := ⟨rfl, refl_of (Recorded _) _⟩

instance : IsTrans Control Silently where
  trans _ _ _ before after :=
    ⟨after.table.trans before.table, trans_of (Recorded _) before.trace after.trace⟩

theorem Silently.quietly {start finish : Control} (silently : Silently start finish) :
    Quietly start finish :=
  ⟨silently.table, silently.trace.mono fun _ => Event.Silent.quiet⟩

theorem quietly_of_silent {α : Type} {action : JobAction α} (silent : Moves Silently action) :
    Moves Quietly action := silent.mono fun _ _ => Silently.quietly

theorem record_silent (event : Event) (silent : event.Silent) : Moves Silently (record event) :=
  .modify fun _ => ⟨rfl, .single _ silent⟩

theorem outcome_silent {α : Type} (outcomes : Nat → α) : Moves Silently (outcome outcomes) :=
  .modifyGet fun _ => ⟨rfl, refl_of (Recorded _) _⟩

theorem outcome_moves {α : Type} (outcomes : Nat → α) : Moves Quietly (outcome outcomes) :=
  quietly_of_silent (outcome_silent outcomes)

theorem waitpid_moves (environment : Environment) (pid : Int) :
    Moves Quietly (waitpid environment pid) :=
  (record_moves (.waitpid pid) trivial).bind fun _ => outcome_moves _

theorem kill_silent (environment : Environment) (target signal : Int) :
    Moves Silently (kill environment target signal) :=
  (record_silent (.kill target signal) trivial).bind fun _ => outcome_silent _

theorem kill_moves (environment : Environment) (target signal : Int) :
    Moves Quietly (kill environment target signal) :=
  quietly_of_silent (kill_silent environment target signal)

theorem tcsetpgrp_silent (environment : Environment) (pgid : Int) :
    Moves Silently (tcsetpgrp environment pgid) :=
  (record_silent (.tcsetpgrp pgid) trivial).bind fun _ => outcome_silent _

theorem tcsetpgrp_moves (environment : Environment) (pgid : Int) :
    Moves Quietly (tcsetpgrp environment pgid) :=
  quietly_of_silent (tcsetpgrp_silent environment pgid)

theorem dprintf_silent (fd : Int) (text : CString) : Moves Silently (dprintf fd text) :=
  record_silent (.print fd text) trivial

theorem printJob_silent (job : Job) (fd : Int) : Moves Silently (printJob job fd) :=
  dprintf_silent _ _

theorem printJob_moves (job : Job) (fd : Int) : Moves Quietly (printJob job fd) :=
  quietly_of_silent (printJob_silent job fd)

theorem printSubjob_silent (subjob : Subjob) (fd : Int) : Moves Silently (printSubjob subjob fd) :=
  dprintf_silent _ _

theorem updateJobStatus_moves (environment : Environment) (job : Job) :
    Moves Quietly (updateJobStatus environment job) := by
  unfold updateJobStatus
  split
  · exact .pure _
  · split
    · exact .pure _
    · split
      · refine (kill_moves environment (-job.pgid) 0).bind fun answer => ?_
        cases answer with
        | none => exact .pure _
        | some error => 
          dsimp only
          split
          · exact .pure _
          · exact .pure _
      · exact .pure _

/-! ## Waiting -/

/-- What waiting does to a subjob: only its status changes, and not once it is finished. -/
structure Subjob.Updated (subjob subjob' : Subjob) : Prop where
  pid : subjob'.pid = subjob.pid
  command : subjob'.command = subjob.command
  finished : isFinishedStatus subjob.lastStatus = true → subjob'.lastStatus = subjob.lastStatus

theorem Subjob.Updated.refl (subjob : Subjob) : subjob.Updated subjob := ⟨rfl, rfl, fun _ => rfl⟩

def SubjobsUpdated : List (Option Subjob) → List (Option Subjob) → Prop :=
  List.Forall₂ (Option.Rel Subjob.Updated)

theorem SubjobsUpdated.refl (subjobs : List (Option Subjob)) : SubjobsUpdated subjobs subjobs := by
  refine List.forall₂_same.mpr fun slot _ => ?_
  cases slot with
  | none => exact .none
  | some subjob => exact .some (.refl _)

theorem waitForSubjobs_moves (environment : Environment) (subjobs : List (Option Subjob)) :
    Moves Quietly (waitForSubjobs environment subjobs) := by
  induction subjobs with
  | nil => exact .pure _
  | cons slot rest ih =>
      cases slot with
      | none => exact ih.bind fun _ => .pure _
      | some subjob =>
          rw [waitForSubjobs]
          split
          · exact ih.bind fun _ => .pure _
          · refine (waitpid_moves environment subjob.pid).bind fun response => ?_
            split
            · exact .pure _
            · exact ih.bind fun _ => .pure _

theorem waitForSubjobs_ok {environment : Environment} {subjobs : List (Option Subjob)} :
    ∀ {start finish : Control} {result : Bool × List (Option Subjob)},
      waitForSubjobs environment subjobs start = .ok result finish →
        SubjobsUpdated subjobs result.2 := by
  induction subjobs with
  | nil =>
      intro start finish result waited
      cases waited
      exact .nil
  | cons slot rest ih =>
      intro start finish result waited
      cases slot with
      | none =>
          obtain ⟨_, _, rested, same⟩ := bind_eq_ok.mp waited
          cases same
          exact .cons .none (ih rested)
      | some subjob =>
          rw [waitForSubjobs] at waited
          split at waited
          · obtain ⟨_, _, rested, same⟩ := bind_eq_ok.mp waited
            cases same
            exact .cons (.some (.refl _)) (ih rested)
          · next unfinished =>
            obtain ⟨response, state, _, continued⟩ := bind_eq_ok.mp waited
            cases processed : processWaitpidResponse response subjob.lastStatus with
            | none =>
                simp only [processed] at continued
                cases continued
                exact .cons (.some (.refl _)) (SubjobsUpdated.refl rest)
            | some status =>
                simp only [processed] at continued
                obtain ⟨_, _, rested, same⟩ := bind_eq_ok.mp continued
                cases same
                exact .cons (.some ⟨rfl, rfl, fun finished => absurd finished unfinished⟩) (ih rested)

theorem waitForJob_moves (environment : Environment) (job : Job) :
    Moves Quietly (waitForJob environment job) := by
  refine (waitForSubjobs_moves environment job.subjobs).bind fun waited => ?_
  dsimp only
  split
  · exact (updateJobStatus_moves environment _).bind fun _ => .pure _
  · exact .pure _

theorem blockingWaitForSubjobs_moves (environment : Environment) (subjobs : List (Option Subjob)) :
    ∀ (index : Nat) (exitCode : Int),
      Moves Quietly (blockingWaitForSubjobs environment index exitCode subjobs) := by
  induction subjobs with
  | nil => exact fun _ _ => .pure _
  | cons slot rest ih =>
      intro index exitCode
      cases slot with
      | none => exact (ih _ _).bind fun _ => .pure _
      | some subjob =>
          rw [blockingWaitForSubjobs]
          split
          · exact (ih _ _).bind fun _ => .pure _
          · refine (waitpid_moves environment subjob.pid).bind fun response => ?_
            split
            · exact .pure _
            · exact (ih _ _).bind fun _ => .pure _

theorem blockingWaitForJob_moves (environment : Environment) (job : Job) :
    Moves Quietly (blockingWaitForJob environment job) := by
  refine (blockingWaitForSubjobs_moves environment job.subjobs 0 0).bind fun waited => ?_
  dsimp only
  split
  · exact .pure _
  · exact (updateJobStatus_moves environment _).bind fun _ => .pure _

theorem parseIntmaxT_silent (string : CString) (fd : Int) :
    Moves Silently (parseIntmaxT string fd) := by
  unfold parseIntmaxT
  repeat' split
  · exact (dprintf_silent _ _).bind fun _ => .pure _
  · exact (dprintf_silent _ _).bind fun _ => .pure _
  · exact (dprintf_silent _ _).bind fun _ => .pure _
  · exact .pure _

theorem getJob_silent (jobIdString : CString) (errorFd : Int) :
    Moves Silently (getJob jobIdString errorFd) := by
  unfold getJob
  split
  · exact (dprintf_silent _ _).bind fun _ => .pure _
  · refine (parseIntmaxT_silent _ errorFd).bind fun parsed => ?_
    cases parsed with
    | none => exact .pure _
    | some value =>
        refine Moves.get.bind fun control => ?_
        dsimp only
        split
        · exact (dprintf_silent _ _).bind fun _ => .pure _
        · split
          · exact (dprintf_silent _ _).bind fun _ => .pure _
          · split
            · exact (dprintf_silent _ _).bind fun _ => .pure _
            · exact .pure _

mutual

theorem printTree_silent (subjob : Subjob) (tabulation : Nat) (fd : Int) :
    ∀ tree : ProcessTree, Moves Silently (printTree subjob tabulation fd tree)
  | .node _ children => by
      unfold printTree
      exact (dprintf_silent _ _).bind fun _ => printTrees_silent subjob (tabulation + 1) fd children

theorem printTrees_silent (subjob : Subjob) (tabulation : Nat) (fd : Int) :
    ∀ trees : List ProcessTree, Moves Silently (printTrees subjob tabulation fd trees)
  | [] => by
      unfold printTrees
      exact .pure _
  | tree :: rest => by
      unfold printTrees
      exact (printTree_silent subjob tabulation fd tree).bind fun _ =>
        printTrees_silent subjob tabulation fd rest

end

theorem printSubjobTrees_silent (environment : Environment) (fd : Int)
    (subjobs : List (Option Subjob)) : Moves Silently (printSubjobTrees environment fd subjobs) := by
  induction subjobs with
  | nil => exact .pure _
  | cons slot rest ih =>
      cases slot with
      | none => exact .throw _
      | some subjob =>
          exact (printSubjob_silent subjob fd).bind fun _ =>
            ((outcome_silent _).bind fun _ => printTrees_silent subjob 0 fd _).bind fun _ => ih

theorem printJobTree_silent (environment : Environment) (job : Job) (fd : Int) :
    Moves Silently (printJobTree environment job fd) := by
  unfold printJobTree
  split
  · exact (dprintf_silent _ _).bind fun _ => printSubjobTrees_silent environment fd _
  · exact printSubjobTrees_silent environment fd _

theorem printJobs_silent (environment : Environment) (tree : Bool) (fd : Int) (jobs : List Job) :
    Moves Silently (printJobs environment tree fd jobs) := by
  induction jobs with
  | nil => exact .pure _
  | cons job rest ih =>
      unfold printJobs
      split
      · exact (printJobTree_silent environment job fd).bind fun _ => ih
      · exact (printJob_silent job fd).bind fun _ => ih

theorem blockingWaitForSubjobs_ok {environment : Environment} {subjobs : List (Option Subjob)} :
    ∀ {index : Nat} {exitCode : Int} {start finish : Control} {result : Int × List (Option Subjob)},
      blockingWaitForSubjobs environment index exitCode subjobs start = .ok result finish →
        SubjobsUpdated subjobs result.2 := by
  induction subjobs with
  | nil =>
      intro index exitCode start finish result waited
      cases waited
      exact .nil
  | cons slot rest ih =>
      intro index exitCode start finish result waited
      cases slot with
      | none =>
          obtain ⟨_, _, rested, same⟩ := bind_eq_ok.mp waited
          cases same
          exact .cons .none (ih rested)
      | some subjob =>
          rw [blockingWaitForSubjobs] at waited
          split at waited
          · obtain ⟨_, _, rested, same⟩ := bind_eq_ok.mp waited
            cases same
            exact .cons (.some (.refl _)) (ih rested)
          · next unfinished =>
            obtain ⟨response, state, _, continued⟩ := bind_eq_ok.mp waited
            cases processed : processWaitpidResponse response subjob.lastStatus with
            | none =>
                simp only [processed] at continued
                cases continued
                exact .cons (.some (.refl _)) (SubjobsUpdated.refl rest)
            | some status =>
                simp only [processed] at continued
                obtain ⟨_, _, rested, same⟩ := bind_eq_ok.mp continued
                cases same
                exact .cons (.some ⟨rfl, rfl, fun finished => absurd finished unfinished⟩) (ih rested)

/-- What waiting does to a job. -/
structure Job.Updated (job job' : Job) : Prop where
  id : job'.id = job.id
  pgid : job'.pgid = job.pgid
  commandString : job'.commandString = job.commandString
  subjobs : SubjobsUpdated job.subjobs job'.subjobs

theorem Job.Updated.refl (job : Job) : job.Updated job := ⟨rfl, rfl, rfl, .refl _⟩

theorem Subjob.Updated.trans {first second third : Subjob} (updated : first.Updated second)
    (updated' : second.Updated third) : first.Updated third where
  pid := updated'.pid.trans updated.pid
  command := updated'.command.trans updated.command
  finished := by
    intro finished
    have same := updated.finished finished
    rw [updated'.finished (same ▸ finished), same]

theorem SubjobsUpdated.trans {first second third : List (Option Subjob)}
    (updated : SubjobsUpdated first second) (updated' : SubjobsUpdated second third) :
    SubjobsUpdated first third := by
  induction updated generalizing third with
  | nil => exact updated'
  | cons slot _ ih =>
      cases updated' with
      | cons slot' rest' =>
          refine .cons ?_ (ih rest')
          cases slot with
          | none => exact slot'
          | some subjob =>
              cases slot' with
              | some subjob' => exact .some (subjob.trans subjob')

theorem Job.Updated.trans {first second third : Job} (updated : first.Updated second)
    (updated' : second.Updated third) : first.Updated third :=
  ⟨updated'.id.trans updated.id, updated'.pgid.trans updated.pgid,
    updated'.commandString.trans updated.commandString, updated.subjobs.trans updated'.subjobs⟩

theorem updateJobStatus_ok {environment : Environment} {job job' : Job} {start finish : Control}
    (updated : updateJobStatus environment job start = .ok job' finish) :
    ∃ status, job' = { job with status } := by
  unfold updateJobStatus at updated
  split at updated
  · cases updated
    exact ⟨_, rfl⟩
  · split at updated
    · cases updated
      exact ⟨_, rfl⟩
    · split at updated
      · obtain ⟨answer, _, _, answered⟩ := bind_eq_ok.mp updated
        cases answer with
        | none =>
            cases answered
            exact ⟨_, rfl⟩
        | some error =>
            dsimp only at answered
            split at answered <;> cases answered <;> exact ⟨_, rfl⟩
      · cases updated
        exact ⟨_, rfl⟩

theorem waitForJob_ok {environment : Environment} {job : Job} {start finish : Control}
    {result : Bool × Job} (waited : waitForJob environment job start = .ok result finish) :
    job.Updated result.2 := by
  obtain ⟨⟨all, subjobs⟩, _, looped, ended⟩ := bind_eq_ok.mp waited
  have updated := waitForSubjobs_ok looped
  dsimp only at ended
  split at ended
  · obtain ⟨job', _, set, same⟩ := bind_eq_ok.mp ended
    obtain ⟨status, rfl⟩ := updateJobStatus_ok set
    cases same
    exact ⟨rfl, rfl, rfl, updated⟩
  · cases ended
    exact ⟨rfl, rfl, rfl, updated⟩

theorem blockingWaitForJob_ok {environment : Environment} {job : Job} {start finish : Control}
    {result : Int × Job} (waited : blockingWaitForJob environment job start = .ok result finish) :
    job.Updated result.2 := by
  obtain ⟨⟨exitCode, subjobs⟩, _, looped, ended⟩ := bind_eq_ok.mp waited
  have updated := blockingWaitForSubjobs_ok looped
  dsimp only at ended
  split at ended
  · cases ended
    exact ⟨rfl, rfl, rfl, updated⟩
  · obtain ⟨job', _, set, same⟩ := bind_eq_ok.mp ended
    obtain ⟨status, rfl⟩ := updateJobStatus_ok set
    cases same
    exact ⟨rfl, rfl, rfl, updated⟩

/-! ## Relations the operations keep to -/

/-- A relation that the operations of the built-ins on the job table keep to. -/
structure JobSteps (environment : Environment) (relation : Control → Control → Prop) : Prop where
  silent : ∀ {start finish : Control}, Silently start finish → relation start finish
  signal : ∀ {control : Control} {index : Nat} {job : Job} (signal : Int),
    control.table.slot index = some job →
    relation control { control with trace := control.trace ++ [.signalJob job (-job.pgid) signal] }
  update : ∀ (fd : Int) (index : Nat), Moves relation (fdUpdateJob environment fd index)
  foreground : ∀ index : Nat, Moves relation (putJobInForeground environment index)

theorem printSelectedJobs_silent (environment : Environment) (call : CommandCall) (tree : Bool)
    (stringJobIndex : Nat) :
    Moves Silently (printSelectedJobs environment call tree stringJobIndex) := by
  unfold printSelectedJobs
  dsimp only
  split
  · refine (getJob_silent _ call.stderr).bind fun found => ?_
    cases found with
    | none => exact .pure _
    | some index =>
        refine Moves.get.bind fun control => ?_
        split
        · exact .throw _
        · split
          · exact (printJobTree_silent environment _ _).bind fun _ => .pure _
          · exact (printJob_silent _ _).bind fun _ => .pure _
  · exact Moves.get.bind fun control => (printJobs_silent environment _ _ _).bind fun _ => .pure _

namespace JobSteps

variable {environment : Environment} {relation : Control → Control → Prop}

theorem ofSilent (steps : JobSteps environment relation) {α : Type} {action : JobAction α}
    (silent : Moves Silently action) : Moves relation action :=
  silent.mono fun _ _ => steps.silent

theorem signalJob [IsTrans Control relation] (steps : JobSteps environment relation) {index : Nat}
    {job : Job} (signal : Int) {start : Control} (found : start.table.slot index = some job) :
    Ends (relation start) start (signalJob environment job signal) :=
  Ends.seq (steps.signal signal found) fun _ state _ =>
    steps.ofSilent (kill_silent environment _ signal) state

theorem mono (steps : JobSteps environment relation) {weaker : Control → Control → Prop}
    (implies : ∀ start finish, relation start finish → weaker start finish) :
    JobSteps environment weaker where
  silent silently := implies _ _ (steps.silent silently)
  signal signal found := implies _ _ (steps.signal signal found)
  update fd index := (steps.update fd index).mono implies
  foreground index := (steps.foreground index).mono implies

variable [Std.Refl relation] [IsTrans Control relation] (steps : JobSteps environment relation)

include steps

theorem fdUpdateJobsFrom (fd : Int) (indices : List Nat) :
    Moves relation (fdUpdateJobsFrom environment fd indices) := by
  induction indices with
  | nil => exact .pure _
  | cons index rest ih => exact (steps.update fd index).bind fun _ => ih

theorem fdUpdateJobs (fd : Int) : Moves relation (fdUpdateJobs environment fd) :=
  Moves.get.bind fun _ => steps.fdUpdateJobsFrom fd _

theorem updateJobs : Moves relation (updateJobs environment) := steps.fdUpdateJobs _

theorem continueJobInBackground (index : Nat) :
    Moves relation (continueJobInBackground environment index) := by
  intro start
  unfold Jsh.continueJobInBackground
  rw [ends_get]
  split
  · exact Moves.pure _ _
  · next job found =>
    exact Ends.seq (steps.signalJob sigcont found) fun _ _ _ => Moves.pure _ _

theorem jobsCommand (call : CommandCall) : Moves relation (jobsCommand environment call) := by
  have selection := printSelectedJobs_silent environment call
  unfold Jsh.jobsCommand
  refine (steps.fdUpdateJobs call.stdout).bind fun _ => ?_
  split
  · exact steps.ofSilent ((dprintf_silent _ _).bind fun _ => .pure _)
  · split
    · exact steps.ofSilent (selection _ _)
    · split
      · exact steps.ofSilent (selection _ _)
      · exact steps.ofSilent (selection _ _)

end JobSteps

section AddJob

variable {relation : Control → Control → Prop} {job : Job}

theorem enterJob_rule [Std.Refl relation] [IsTrans Control relation]
    (add : ∀ (control : Control) (index : Nat),
      control.table.slots.findIdx? (·.isNone) = some index →
      relation control
        (control.store (control.table.insert index { job with id := index + 1 }))) :
    Moves relation (enterJob job) := by
  intro start
  unfold enterJob
  rw [ends_get]
  dsimp only
  split
  · next index free => exact Ends.seq (add start index free) fun _ _ _ => Moves.pure _ _
  · exact Moves.pure _ _

/-- `add_job` grows the table at most, and puts the job in an empty slot. -/
theorem addJob_rule [Std.Refl relation] [IsTrans Control relation]
    (grow : ∀ control : Control, control.table.size = control.table.capacity →
      control.table.grow.capacity * 8 < 2 ^ 64 →
      relation control (control.store control.table.grow))
    (add : ∀ (control : Control) (index : Nat),
      control.table.slots.findIdx? (·.isNone) = some index →
      relation control
        (control.store (control.table.insert index { job with id := index + 1 }))) :
    Moves relation (addJob job) := by
  intro start
  unfold addJob
  rw [ends_get]
  dsimp only
  split
  · next full =>
    refine Ends.seq ?_ fun _ state _ => enterJob_rule add state
    unfold growTable
    rw [ends_get]
    dsimp only
    split
    · exact Moves.throw _ _
    · next bounded => exact grow start full (Nat.lt_of_not_le bounded)
  · exact enterJob_rule add start

end AddJob

/-! ## Moves of the job table -/

/-- One step of job control. The jobs that enter the table satisfy `added`, and the
signals sent to a job go to its process group. -/
inductive Move (added : Job → Prop) : Control → Control → Prop
  | quiet {start finish : Control} : Quietly start finish → Move added start finish
  | signal {control : Control} {index : Nat} {job : Job} (signal : Int) :
      control.table.slot index = some job →
      Move added control
        { control with trace := control.trace ++ [.signalJob job (-job.pgid) signal] }
  | update {control : Control} {index : Nat} {job job' : Job} :
      control.table.slot index = some job → job.Updated job' →
      Move added control (control.store (control.table.write index (some job')))
  | remove {control : Control} {index : Nat} {job : Job} :
      control.table.slot index = some job →
      Move added control (control.store (control.table.erase index))
  | grow {control : Control} (job : Job) :
      added job → control.table.size = control.table.capacity →
      control.table.grow.capacity * 8 < 2 ^ 64 →
      Move added control (control.store control.table.grow)
  | add {control : Control} {index : Nat} {job : Job} :
      added job → control.table.slots.findIdx? (·.isNone) = some index →
      Move added control (control.store (control.table.insert index { job with id := index + 1 }))

theorem Move.mono {added weaker : Job → Prop} {start finish : Control}
    (moved : Move added start finish) (implies : ∀ job, added job → weaker job) :
    Move weaker start finish := by
  cases moved with
  | quiet quietly => exact .quiet quietly
  | signal signal found => exact .signal signal found
  | update found updated => exact .update found updated
  | remove found => exact .remove found
  | grow job allowed full bounded => exact .grow job (implies job allowed) full bounded
  | add allowed free => exact .add (implies _ allowed) free

/-- A sequence of moves. -/
abbrev Course (added : Job → Prop) : Control → Control → Prop := Relation.ReflTransGen (Move added)

section Course

variable {added : Job → Prop}

theorem Move.recorded {start finish : Control} (moved : Move added start finish) :
    Recorded Event.OfJobs start.trace finish.trace := by
  cases moved with
  | quiet quietly => exact quietly.trace.mono fun _ => Event.Quiet.ofJobs
  | signal _ _ | update _ _ | remove _ | grow _ _ _ _ | add _ _ => exact .single _ trivial

theorem Course.recorded {start finish : Control} (course : Course added start finish) :
    Recorded Event.OfJobs start.trace finish.trace := by
  induction course with
  | refl => exact refl_of (Recorded _) _
  | tail _ moved ih => exact trans_of (Recorded _) ih moved.recorded

theorem Course.ofQuiet {α : Type} {action : JobAction α} (quiet : Moves Quietly action) :
    Moves (Course added) action :=
  quiet.mono fun _ _ quietly => .single (.quiet quietly)

theorem removeJob_moves (id : Nat) : Moves (Course added) (removeJob id) := by
  intro start
  unfold removeJob
  rw [ends_get]
  dsimp only
  split
  · exact Moves.pure _ _
  · split
    · exact Moves.pure _ _
    · next job found =>
      exact Ends.seq (.single (.remove found)) fun _ _ _ => Moves.pure _ _

theorem fdUpdateJob_moves (environment : Environment) (fd : Int) (index : Nat) :
    Moves (Course added) (fdUpdateJob environment fd index) := by
  intro start
  unfold fdUpdateJob
  rw [ends_get]
  split
  · exact Moves.pure _ _
  · next job found =>
    have quiet := waitForJob_moves environment job
    refine Ends.seq (Course.ofQuiet quiet start) fun result state waited => ?_
    have kept := ((quiet start).of_ok waited).table
    rw [← kept] at found
    rw [ends_get]
    refine Ends.seq (.single (.update found (waitForJob_ok waited))) fun _ stored _ => ?_
    have removal : Moves (Course added) (do
        if isJobFinished result.2 then
          let _ ← removeJob result.2.id) := by
      split
      · exact (removeJob_moves _).bind fun _ => .pure _
      · exact .pure _
    dsimp only
    split
    · split
      · exact ((Course.ofQuiet (printJob_moves _ fd)).bind fun _ => removal) _
      · exact removal _
    · exact Moves.pure _ _

/-- `add_job` on a job the table may take. -/
theorem addJob_moves {job : Job} (allowed : added job) : Moves (Course added) (addJob job) :=
  addJob_rule (fun _ full bounded => .single (.grow job allowed full bounded))
    fun _ _ free => .single (.add allowed free)

/-- A signal is sent to a job in the table. -/
theorem signalJob_moves (environment : Environment) {index : Nat} {job : Job} (signal : Int)
    {start : Control} (found : start.table.slot index = some job) :
    Ends (Course added start) start (signalJob environment job signal) :=
  Ends.seq (.single (.signal signal found)) fun _ _ _ => Course.ofQuiet (kill_moves environment _ signal) _

/-- A signal leaves the table as it is. -/
theorem signalJob_table (environment : Environment) (job : Job) (signal : Int) :
    Moves (fun start finish => finish.table = start.table) (signalJob environment job signal) := by
  intro start
  exact ((kill_moves environment (-job.pgid) signal) _).table

theorem putJobInForeground_moves (environment : Environment) (index : Nat) :
    Moves (Course added) (putJobInForeground environment index) := by
  intro start
  unfold putJobInForeground
  rw [ends_get]
  split
  · exact Moves.pure _ _
  · next job found =>
    have foreground := tcsetpgrp_moves environment job.pgid
    refine Ends.seq (Course.ofQuiet foreground start) fun granted first given => ?_
    rw [← ((foreground start).of_ok given).table] at found
    split
    · exact Moves.pure _ _
    · refine Ends.seq (signalJob_moves environment sigcont found) fun answer second sent => ?_
      rw [← (signalJob_table environment job sigcont first).of_ok sent] at found
      split
      · exact Moves.pure _ _
      · have quiet := blockingWaitForJob_moves environment job
        refine Ends.seq (Course.ofQuiet quiet second) fun result third waited => ?_
        rw [← ((quiet second).of_ok waited).table] at found
        rw [ends_get]
        refine Ends.seq (.single (.update found (blockingWaitForJob_ok waited)))
          fun _ stored _ => ?_
        dsimp only
        have back : Moves (Course added) (tcsetpgrp environment environment.shellPgid) :=
          Course.ofQuiet (tcsetpgrp_moves environment _)
        split
        · exact Moves.pure _ _
        · split
          · exact ((removeJob_moves _).bind fun _ => back) _
          · exact ((Course.ofQuiet (printJob_moves _ _)).bind fun _ => back) _

theorem Course.steps (environment : Environment) : JobSteps environment (Course added) where
  silent silently := .single (.quiet silently.quietly)
  signal signal found := .single (.signal signal found)
  update := fdUpdateJob_moves environment
  foreground := putJobInForeground_moves environment

theorem fdUpdateJobs_moves (environment : Environment) (fd : Int) :
    Moves (Course added) (fdUpdateJobs environment fd) := (Course.steps environment).fdUpdateJobs fd

theorem updateJobs_moves (environment : Environment) :
    Moves (Course added) (updateJobs environment) := (Course.steps environment).updateJobs

end Course

end Jsh
