import Jsh.Numbers
import Jsh.ShellMoves

/-!
# What a built-in prints and signals

The calls a built-in makes in their order: it prints on the descriptors of its call, it
signals the process group of a job, or the process its argument names.
-/

set_option autoImplicit false

namespace Jsh

open Library

/-! ## Deeds -/

/-- Neither a line that is printed, nor a signal, nor the launch of a process. -/
def Event.Inward : Event → Prop
  | .table _ | .waitpid _ | .tcsetpgrp _ | .leave _ => True
  | _ => False

/-- Events one after the other: lines printed on some descriptors, signals to the process
group of a job and to a process that may be named, and probes with signal 0. -/
inductive Deeds (fds : List Int) (named : Int → Prop) : List Event → Prop
  | none : Deeds fds named []
  | inward {event : Event} {events : List Event} : event.Inward → Deeds fds named events →
      Deeds fds named (event :: events)
  | print {fd : Int} (text : CString) {events : List Event} : fd ∈ fds → Deeds fds named events →
      Deeds fds named (.print fd text :: events)
  | probe (target : Int) {events : List Event} : Deeds fds named events →
      Deeds fds named (.kill target 0 :: events)
  | job (job : Job) (signal : Int) {events : List Event} : Deeds fds named events →
      Deeds fds named (.signalJob job (-job.pgid) signal :: .kill (-job.pgid) signal :: events)
  | process {target : Int} (signal : Int) {events : List Event} : named target →
      Deeds fds named events → Deeds fds named (.kill target signal :: events)

theorem Deeds.append {fds : List Int} {named : Int → Prop} {first second : List Event}
    (before : Deeds fds named first) (after : Deeds fds named second) :
    Deeds fds named (first ++ second) := by
  induction before with
  | none => exact after
  | inward inward _ ih => exact .inward inward ih
  | print text listed _ ih => exact .print text listed ih
  | probe target _ ih => exact .probe target ih
  | job job signal _ ih => exact .job job signal ih
  | process signal told _ ih => exact .process signal told ih

/-- A signal that is a probe, or goes to a process that may be named or to the process group of
a job. -/
def Told (named : Int → Prop) (events : List Event) (target signal : Int) : Prop :=
  signal = 0 ∨ named target ∨
    ∃ job, target = -job.pgid ∧ .signalJob job target signal ∈ events

theorem Told.mono {named : Int → Prop} {events more : List Event} {target signal : Int}
    (told : Told named events target signal) (within : events ⊆ more) :
    Told named more target signal := by
  refine told.imp_right fun found => found.imp_right fun found => ?_
  obtain ⟨job, group, among⟩ := found
  exact ⟨job, group, within among⟩

theorem Deeds.kill_mem {fds : List Int} {named : Int → Prop} {events : List Event}
    (deeds : Deeds fds named events) {target signal : Int}
    (member : .kill target signal ∈ events) : Told named events target signal := by
  induction deeds with
  | none => cases member
  | @inward event _ inward _ ih =>
      rcases List.mem_cons.mp member with same | later
      · rw [← same] at inward
        cases inward
      · exact (ih later).mono (List.subset_cons_self _ _)
  | print _ _ _ ih =>
      rcases List.mem_cons.mp member with same | later
      · cases same
      · exact (ih later).mono (List.subset_cons_self _ _)
  | probe _ _ ih =>
      rcases List.mem_cons.mp member with same | later
      · cases same
        exact .inl rfl
      · exact (ih later).mono (List.subset_cons_self _ _)
  | job job _ _ ih =>
      rcases List.mem_cons.mp member with same | later
      · cases same
      · rcases List.mem_cons.mp later with same | later
        · cases same
          exact .inr (.inr ⟨job, rfl, .head _⟩)
        · exact (ih later).mono fun _ inside => .tail _ (.tail _ inside)
  | process _ told _ ih =>
      rcases List.mem_cons.mp member with same | later
      · cases same
        exact .inr (.inl told)
      · exact (ih later).mono (List.subset_cons_self _ _)

/-! ## Job control -/

/-- The trace grows by deeds. -/
def Acts (fds : List Int) (named : Int → Prop) (start finish : Control) : Prop :=
  ∃ events, finish.trace = start.trace ++ events ∧ Deeds fds named events

section JobControl

variable {fds : List Int} {named : Int → Prop} {environment : Environment}

instance : Std.Refl (Acts fds named) where
  refl _ := ⟨[], (List.append_nil _).symm, .none⟩

instance : IsTrans Control (Acts fds named) where
  trans start middle finish := by
    intro ⟨first, before, deeds⟩ ⟨second, after, deeds'⟩
    refine ⟨first ++ second, ?_, deeds.append deeds'⟩
    rw [after, before, List.append_assoc]

theorem outcome_acts {α : Type} (outcomes : Nat → α) :
    Moves (Acts fds named) (outcome outcomes) :=
  .modifyGet fun _ => ⟨[], (List.append_nil _).symm, .none⟩

theorem record_acts (event : Event) (inward : event.Inward) :
    Moves (Acts fds named) (record event) :=
  .modify fun _ => ⟨[event], rfl, .inward inward .none⟩

theorem dprintf_acts {fd : Int} (listed : fd ∈ fds) (text : CString) :
    Moves (Acts fds named) (dprintf fd text) :=
  .modify fun _ => ⟨[.print fd text], rfl, .print text listed .none⟩

theorem setTable_acts (table : JobTable) : Moves (Acts fds named) (setTable table) :=
  .modify fun _ => ⟨[.table table], rfl, .inward trivial .none⟩

theorem waitpid_acts (pid : Int) : Moves (Acts fds named) (waitpid environment pid) :=
  (record_acts (.waitpid pid) trivial).bind fun _ => outcome_acts _

theorem tcsetpgrp_acts (pgid : Int) : Moves (Acts fds named) (tcsetpgrp environment pgid) :=
  (record_acts (.tcsetpgrp pgid) trivial).bind fun _ => outcome_acts _

theorem probe_acts (target : Int) : Moves (Acts fds named) (kill environment target 0) := by
  have recorded : Moves (Acts fds named) (record (.kill target 0)) :=
    .modify fun _ => ⟨[.kill target 0], rfl, .probe target .none⟩
  exact recorded.bind fun _ => outcome_acts _

theorem kill_acts {target : Int} (told : named target) (signal : Int) :
    Moves (Acts fds named) (kill environment target signal) := by
  have recorded : Moves (Acts fds named) (record (.kill target signal)) :=
    .modify fun _ => ⟨[.kill target signal], rfl, .process signal told .none⟩
  exact recorded.bind fun _ => outcome_acts _

/-- The two events of a signal to a job are recorded together. -/
theorem signalJob_acts (job : Job) (signal : Int) :
    Moves (Acts fds named) (signalJob environment job signal) := by
  intro start
  refine ⟨[.signalJob job (-job.pgid) signal, .kill (-job.pgid) signal], ?_, .job job signal .none⟩
  exact List.append_assoc start.trace [.signalJob job (-job.pgid) signal]
    [.kill (-job.pgid) signal]

theorem updateJobStatus_acts (job : Job) :
    Moves (Acts fds named) (updateJobStatus environment job) := by
  unfold updateJobStatus
  split
  · exact .pure _
  · split
    · exact .pure _
    · split
      · refine (probe_acts (-job.pgid)).bind fun answer => ?_
        cases answer with
        | none => exact .pure _
        | some error =>
            dsimp only
            split
            · exact .pure _
            · exact .pure _
      · exact .pure _

theorem waitForSubjobs_acts (subjobs : List (Option Subjob)) :
    Moves (Acts fds named) (waitForSubjobs environment subjobs) := by
  induction subjobs with
  | nil => exact .pure _
  | cons slot rest ih =>
      cases slot with
      | none => exact ih.bind fun _ => .pure _
      | some subjob =>
          rw [waitForSubjobs]
          split
          · exact ih.bind fun _ => .pure _
          · refine (waitpid_acts subjob.pid).bind fun response => ?_
            split
            · exact .pure _
            · exact ih.bind fun _ => .pure _

theorem waitForJob_acts (job : Job) : Moves (Acts fds named) (waitForJob environment job) := by
  refine (waitForSubjobs_acts job.subjobs).bind fun waited => ?_
  dsimp only
  split
  · exact (updateJobStatus_acts _).bind fun _ => .pure _
  · exact .pure _

theorem blockingWaitForSubjobs_acts (subjobs : List (Option Subjob)) :
    ∀ (index : Nat) (exitCode : Int),
      Moves (Acts fds named) (blockingWaitForSubjobs environment index exitCode subjobs) := by
  induction subjobs with
  | nil => exact fun _ _ => .pure _
  | cons slot rest ih =>
      intro index exitCode
      cases slot with
      | none => exact (ih _ _).bind fun _ => .pure _
      | some subjob =>
          rw [blockingWaitForSubjobs]
          split
          · exact (ih _ _).bind fun _ => .pure _
          · refine (waitpid_acts subjob.pid).bind fun response => ?_
            split
            · exact .pure _
            · exact (ih _ _).bind fun _ => .pure _

theorem blockingWaitForJob_acts (job : Job) :
    Moves (Acts fds named) (blockingWaitForJob environment job) := by
  refine (blockingWaitForSubjobs_acts job.subjobs 0 0).bind fun waited => ?_
  dsimp only
  split
  · exact .pure _
  · exact (updateJobStatus_acts _).bind fun _ => .pure _

theorem removeJob_acts (id : Nat) : Moves (Acts fds named) (removeJob id) := by
  refine Moves.get.bind fun control => ?_
  dsimp only
  split
  · exact .pure _
  · split
    · exact .pure _
    · exact (setTable_acts _).bind fun _ => .pure _

theorem printJob_acts {fd : Int} (listed : fd ∈ fds) (job : Job) :
    Moves (Acts fds named) (printJob job fd) := dprintf_acts listed _

theorem addJob_acts (job : Job) : Moves (Acts fds named) (addJob job) :=
  addJob_rule (fun control _ _ => setTable_acts control.table.grow control)
    fun control index _ => setTable_acts (control.table.insert index _) control

theorem keepJob_acts (printed : stderrFileno ∈ fds) (info : InternalExitInfo) (job : Job) :
    Moves (Acts fds named) (keepJob info job) := by
  refine (addJob_acts job).bind fun added => ?_
  obtain ⟨jobId, job'⟩ := added
  exact (printJob_acts printed job').bind fun _ => .pure _

theorem fdUpdateJob_acts {fd : Int} (listed : fd ∈ fds) (index : Nat) :
    Moves (Acts fds named) (fdUpdateJob environment fd index) := by
  refine Moves.get.bind fun control => ?_
  split
  · exact .pure _
  · next job found =>
    refine (waitForJob_acts job).bind fun waited => ?_
    obtain ⟨all, job'⟩ := waited
    refine Moves.get.bind fun updated => ?_
    refine (setTable_acts _).bind fun _ => ?_
    have removal : Moves (Acts fds named) (do
        if isJobFinished job' then
          let _ ← removeJob job'.id) := by
      split
      · exact (removeJob_acts _).bind fun _ => .pure _
      · exact .pure _
    dsimp only
    split
    · split
      · exact (printJob_acts listed job').bind fun _ => removal
      · exact removal
    · exact .pure _

theorem fdUpdateJobsFrom_acts {fd : Int} (listed : fd ∈ fds) (indices : List Nat) :
    Moves (Acts fds named) (fdUpdateJobsFrom environment fd indices) := by
  induction indices with
  | nil => exact .pure _
  | cons index rest ih => exact (fdUpdateJob_acts listed index).bind fun _ => ih

theorem fdUpdateJobs_acts {fd : Int} (listed : fd ∈ fds) :
    Moves (Acts fds named) (fdUpdateJobs environment fd) :=
  Moves.get.bind fun _ => fdUpdateJobsFrom_acts listed _

theorem putJobInForeground_acts (printed : stderrFileno ∈ fds) (index : Nat) :
    Moves (Acts fds named) (putJobInForeground environment index) := by
  refine Moves.get.bind fun control => ?_
  split
  · exact .pure _
  · next job found =>
    refine (tcsetpgrp_acts job.pgid).bind fun given => ?_
    split
    · exact .pure _
    · refine (signalJob_acts job sigcont).bind fun error => ?_
      split
      · exact .pure _
      · refine (blockingWaitForJob_acts job).bind fun waited => ?_
        obtain ⟨exitCode, job'⟩ := waited
        refine Moves.get.bind fun updated => ?_
        refine (setTable_acts _).bind fun _ => ?_
        dsimp only
        split
        · exact .pure _
        · split
          · exact (removeJob_acts _).bind fun _ => tcsetpgrp_acts _
          · exact (printJob_acts printed job').bind fun _ => tcsetpgrp_acts _

theorem continueJobInBackground_acts (index : Nat) :
    Moves (Acts fds named) (continueJobInBackground environment index) := by
  refine Moves.get.bind fun control => ?_
  split
  · exact .pure _
  · next job found => exact (signalJob_acts job sigcont).bind fun _ => .pure _

theorem parseIntmaxT_acts {fd : Int} (listed : fd ∈ fds) (string : CString) :
    Moves (Acts fds named) (parseIntmaxT string fd) := by
  unfold parseIntmaxT
  repeat' split
  · exact (dprintf_acts listed _).bind fun _ => .pure _
  · exact (dprintf_acts listed _).bind fun _ => .pure _
  · exact (dprintf_acts listed _).bind fun _ => .pure _
  · exact .pure _

theorem getJob_acts {errorFd : Int} (listed : errorFd ∈ fds) (jobIdString : CString) :
    Moves (Acts fds named) (getJob jobIdString errorFd) := by
  unfold getJob
  split
  · exact (dprintf_acts listed _).bind fun _ => .pure _
  · refine (parseIntmaxT_acts listed _).bind fun parsed => ?_
    cases parsed with
    | none => exact .pure _
    | some value =>
        refine Moves.get.bind fun control => ?_
        dsimp only
        split
        · exact (dprintf_acts listed _).bind fun _ => .pure _
        · split
          · exact (dprintf_acts listed _).bind fun _ => .pure _
          · split
            · exact (dprintf_acts listed _).bind fun _ => .pure _
            · exact .pure _

mutual

theorem printTree_acts {fd : Int} (listed : fd ∈ fds) (subjob : Subjob) (tabulation : Nat) :
    ∀ tree : ProcessTree, Moves (Acts fds named) (printTree subjob tabulation fd tree)
  | .node _ children => by
      unfold printTree
      exact (dprintf_acts listed _).bind fun _ =>
        printTrees_acts listed subjob (tabulation + 1) children

theorem printTrees_acts {fd : Int} (listed : fd ∈ fds) (subjob : Subjob) (tabulation : Nat) :
    ∀ trees : List ProcessTree, Moves (Acts fds named) (printTrees subjob tabulation fd trees)
  | [] => by
      unfold printTrees
      exact .pure _
  | tree :: rest => by
      unfold printTrees
      exact (printTree_acts listed subjob tabulation tree).bind fun _ =>
        printTrees_acts listed subjob tabulation rest

end

theorem printSubjobTrees_acts {fd : Int} (listed : fd ∈ fds) (subjobs : List (Option Subjob)) :
    Moves (Acts fds named) (printSubjobTrees environment fd subjobs) := by
  induction subjobs with
  | nil => exact .pure _
  | cons slot rest ih =>
      cases slot with
      | none => exact .throw _
      | some subjob =>
          have printed : Moves (Acts fds named) (printSubjob subjob fd) := dprintf_acts listed _
          exact printed.bind fun _ =>
            ((outcome_acts _).bind fun _ => printTrees_acts listed subjob 0 _).bind fun _ => ih

theorem printJobTree_acts {fd : Int} (listed : fd ∈ fds) (job : Job) :
    Moves (Acts fds named) (printJobTree environment job fd) := by
  unfold printJobTree
  split
  · exact (dprintf_acts listed _).bind fun _ => printSubjobTrees_acts listed _
  · exact printSubjobTrees_acts listed _

theorem printJobs_acts {fd : Int} (listed : fd ∈ fds) (tree : Bool) (jobs : List Job) :
    Moves (Acts fds named) (printJobs environment tree fd jobs) := by
  induction jobs with
  | nil => exact .pure _
  | cons job rest ih =>
      unfold printJobs
      split
      · exact (printJobTree_acts listed job).bind fun _ => ih
      · exact (printJob_acts listed job).bind fun _ => ih

/-! ## The built-ins -/

section Builtins

variable {call : CommandCall} (output : call.stdout ∈ fds) (errors : call.stderr ∈ fds)

include output errors

theorem printSelectedJobs_acts (tree : Bool) (stringJobIndex : Nat) :
    Moves (Acts fds named) (printSelectedJobs environment call tree stringJobIndex) := by
  unfold printSelectedJobs
  dsimp only
  split
  · refine (getJob_acts errors _).bind fun found => ?_
    cases found with
    | none => exact .pure _
    | some index =>
        refine Moves.get.bind fun control => ?_
        split
        · exact .throw _
        · split
          · exact (printJobTree_acts output _).bind fun _ => .pure _
          · exact (printJob_acts output _).bind fun _ => .pure _
  · exact Moves.get.bind fun control => (printJobs_acts output _ _).bind fun _ => .pure _

theorem jobsCommand_acts : Moves (Acts fds named) (jobsCommand environment call) := by
  refine (fdUpdateJobs_acts output).bind fun _ => ?_
  split
  · exact (dprintf_acts errors _).bind fun _ => .pure _
  · split
    · exact printSelectedJobs_acts output errors _ _
    · split
      · exact printSelectedJobs_acts output errors _ _
      · exact printSelectedJobs_acts output errors _ _

omit output

theorem killAnswer_acts (sig : Int) (error : Option KillError) :
    Moves (Acts fds named) (killAnswer call.stderr sig error) := by
  unfold killAnswer
  split
  · exact .pure _
  · exact (dprintf_acts errors _).bind fun _ => .pure _
  · exact (dprintf_acts errors _).bind fun _ => .pure _
  · exact (dprintf_acts errors _).bind fun _ => .pure _

/-- `kill` signals the group of a job, or the process the argument names. -/
theorem killTarget_acts {identifier : CString} (sig : Int)
    (told : ∀ value, IntmaxRead identifier value → named (toInt value)) :
    Moves (Acts fds named) (killTarget environment sig identifier call.stderr) := by
  have answered : ∀ error, Moves (Acts fds named) (do
      let answer ← killAnswer call.stderr sig error
      return exitCodeOf answer) := fun error =>
    (killAnswer_acts errors sig error).bind fun _ => .pure _
  unfold killTarget
  split
  · refine (getJob_acts errors identifier).bind fun found => ?_
    cases found with
    | none => exact .pure _
    | some index =>
        refine Moves.get.bind fun control => ?_
        split
        · exact .throw _
        · next job found => exact (signalJob_acts job sig).bind fun _ => answered _
  · intro start
    rcases parseIntmaxT_cases identifier call.stderr start with
      ⟨value, read, parsed⟩ | ⟨_, message, _, parsed⟩
    · refine Ends.step parsed (refl_of (Acts fds named) start) ?_
      exact ((kill_acts (told value read) sig).bind fun _ => answered _) start
    · refine Ends.step parsed ?_ (Moves.pure _ _)
      exact ⟨[.print call.stderr message], rfl, .print message errors .none⟩

theorem killCommand_acts
    (told : ∀ index value, IntmaxRead (call.argv.getD index []) value → named (toInt value)) :
    Moves (Acts fds named) (killCommand environment call) := by
  unfold killCommand
  split
  · exact (dprintf_acts errors _).bind fun _ => (dprintf_acts errors _).bind fun _ => .pure _
  · dsimp only
    split
    · refine (parseIntmaxT_acts errors _).bind fun parsed => ?_
      cases parsed with
      | none => exact .pure _
      | some value =>
          dsimp only
          split
          · exact (dprintf_acts errors _).bind fun _ => .pure _
          · exact killTarget_acts errors _ (told _)
    · exact killTarget_acts errors _ (told _)

theorem jobCommand_acts (name : CString) {action : Nat → JobAction Bool}
    (acts : ∀ index, Moves (Acts fds named) (action index)) :
    Moves (Acts fds named) (jobCommand name action call) := by
  unfold jobCommand
  split
  · exact (dprintf_acts errors _).bind fun _ => .pure _
  · split
    · exact (dprintf_acts errors _).bind fun _ => .pure _
    · refine (getJob_acts errors _).bind fun found => ?_
      cases found with
      | none => exact .pure _
      | some index => exact (acts index).bind fun _ => .pure _

end Builtins

/-! ## The shell's own state -/

theorem getcwd_acts : Moves (OnControl (Acts fds named)) (getcwd environment) := by
  refine (liftJob_onControl (outcome_acts _)).bind fun failure => ?_
  cases failure with
  | some text => exact .pure _
  | none => exact Moves.get.bind fun _ => .pure _

theorem getCurrentWd_acts : Moves (OnControl (Acts fds named)) (getCurrentWd environment) := by
  refine getcwd_acts.bind fun current => ?_
  cases current with
  | error text => exact .pure _
  | ok cwd => exact .pure _

/-- A change of what job control does not read. -/
theorem modify_acts (update : Shell → Shell)
    (kept : ∀ shell, (update shell).control = shell.control) :
    Moves (OnControl (Acts fds named)) (modify update : ShellAction Unit) := by
  refine .modify fun shell => ?_
  rw [OnControl, kept]
  exact refl_of (Acts fds named) _

section ShellBuiltins

variable {call : CommandCall} (output : call.stdout ∈ fds) (errors : call.stderr ∈ fds)

include errors

theorem complains (text : CString) :
    Moves (OnControl (Acts fds named)) (liftJob (dprintf call.stderr text)) :=
  liftJob_onControl (dprintf_acts errors text)

theorem isValidTargetDir_acts (target : CString) :
    Moves (Acts fds named) (isValidTargetDir environment target call.stderr) := by
  have valid : Moves (Acts fds named) (isValidPath environment target call.stderr) := by
    refine (outcome_acts _).bind fun answer => ?_
    cases answer with
    | file | directory => exact .pure _
    | noAccess | missing | failed _ => exact (dprintf_acts errors _).bind fun _ => .pure _
  refine valid.bind fun answer => ?_
  split
  · exact .pure _
  · exact (dprintf_acts errors _).bind fun _ => .pure _
  · exact .pure _

theorem setNewCwd_acts (newCwd : CString) :
    Moves (OnControl (Acts fds named)) (setNewCwd environment newCwd call.stderr) := by
  refine (liftJob_onControl (isValidTargetDir_acts errors newCwd)).bind fun valid => ?_
  split
  · exact .pure _
  · refine getcwd_acts.bind fun current => ?_
    cases current with
    | error text => exact (complains errors _).bind fun _ => .pure _
    | ok cwd =>
        refine (modify_acts (fun shell => { shell with lwd := cwd }) fun _ => rfl).bind fun _ => ?_
        refine (liftJob_onControl (outcome_acts _)).bind fun answer => ?_
        cases answer with
        | error text => exact (complains errors _).bind fun _ => .pure _
        | ok entered =>
            exact (modify_acts (fun shell => { shell with cwd := entered }) fun _ => rfl).bind
              fun _ => .pure _

theorem cd_acts : Moves (OnControl (Acts fds named)) (cd environment call) := by
  have moved : ∀ path, Moves (OnControl (Acts fds named)) (do
      return exitCodeOf (← setNewCwd environment path call.stderr)) := fun path =>
    (setNewCwd_acts errors path).bind fun _ => .pure _
  unfold cd
  split
  · split
    · exact (complains errors _).bind fun _ => .pure _
    · exact moved _
  · split
    · refine Moves.get.bind fun shell => ?_
      split
      · exact Moves.get.bind fun shell => moved _
      · refine getcwd_acts.bind fun current => ?_
        cases current with
        | error text => exact (complains errors _).bind fun _ => .pure _
        | ok cwd => exact moved _
    · split
      · exact moved _
      · exact (complains errors _).bind fun _ => (complains errors _).bind fun _ => .pure _

theorem exitCommand_acts (printed : stderrFileno ∈ fds) :
    Moves (OnControl (Acts fds named)) (exitCommand environment call) := by
  have left : Moves (OnControl (Acts fds named)) (leave call) :=
    (liftJob_onControl (record_acts (.leave call) trivial)).bind fun _ =>
      modify_acts (fun shell => { shell with shouldExit := true }) fun _ => rfl
  unfold exitCommand
  split
  · exact (complains errors _).bind fun _ => .pure _
  · refine (liftJob_onControl (fdUpdateJobs_acts printed)).bind fun _ => ?_
    refine Moves.get.bind fun updated => ?_
    split
    · exact (complains errors _).bind fun _ => .pure _
    · split
      · exact left.bind fun _ => Moves.get.bind fun _ => .pure _
      · split
        · refine (liftJob_onControl (parseIntmaxT_acts errors _)).bind fun parsed => ?_
          cases parsed with
          | none => exact .pure _
          | some value =>
              dsimp only
              split
              · exact (complains errors _).bind fun _ => .pure _
              · exact (modify_acts (fun shell => { shell with lastExitCode := value })
                  fun _ => rfl).bind fun _ => left.bind fun _ => .pure _
        · exact Moves.get.bind fun _ => .pure _

include output

theorem pwd_acts : Moves (OnControl (Acts fds named)) (pwd environment call) := by
  unfold pwd
  split
  · exact (complains errors _).bind fun _ => .pure _
  · refine getCurrentWd_acts.bind fun current => ?_
    refine (liftJob_onControl (dprintf_acts output _)).bind fun _ => ?_
    split
    · exact .pure _
    · exact .throw _

theorem lastExitCodeCommand_acts :
    Moves (OnControl (Acts fds named)) (lastExitCodeCommand call) := by
  unfold lastExitCodeCommand
  split
  · exact (complains errors _).bind fun _ => .pure _
  · exact Moves.get.bind fun shell =>
      (liftJob_onControl (dprintf_acts output _)).bind fun _ => .pure _

end ShellBuiltins

end JobControl

/-! ## Dispatch -/

/-- A number an argument of the call is read as, converted to a `pid_t`. -/
def CommandCall.Names (call : CommandCall) (target : Int) : Prop :=
  call.name = "kill".toList ∧
    ∃ index value, IntmaxRead (call.argv.getD index []) value ∧ target = toInt value

/-- The descriptors a built-in prints on. The jobs that change are announced on the standard
error of the shell. -/
def CommandCall.outputs (call : CommandCall) : List Int :=
  [call.stdout, call.stderr, stderrFileno]

/-- The call comes first, and then what it does. -/
def Performs (call : CommandCall) (start finish : Control) : Prop :=
  ∃ events, finish.trace = start.trace ++ .call call :: events ∧
    Deeds call.outputs call.Names events

theorem executeInternalCommand_performs (environment : Environment) (call : CommandCall)
    (start : Shell) :
    Ends (fun finish => Performs call start.control finish.control) start
      (executeInternalCommand environment call) := by
  have output : call.stdout ∈ call.outputs := .head _
  have errors : call.stderr ∈ call.outputs := .tail _ (.head _)
  have printed : stderrFileno ∈ call.outputs := .tail _ (.tail _ (.head _))
  obtain ⟨action, same, acts⟩ : ∃ action : ShellAction Int,
      executeInternalCommand environment call start = action (start.calling call) ∧
        Moves (OnControl (Acts call.outputs call.Names)) action := by
    have called : liftJob (record (.call call)) start = .ok () (start.calling call) := rfl
    unfold executeInternalCommand
    rw [bind_of_ok called]
    split
    · exact ⟨_, rfl, cd_acts errors⟩
    · split
      · exact ⟨_, rfl, lastExitCodeCommand_acts output errors⟩
      · split
        · exact ⟨_, rfl, exitCommand_acts errors printed⟩
        · split
          · exact ⟨_, rfl, pwd_acts output errors⟩
          · split
            · exact ⟨_, rfl, liftJob_onControl (jobsCommand_acts output errors)⟩
            · split
              · next kills =>
                have told : ∀ index value, IntmaxRead (call.argv.getD index []) value →
                    call.Names (toInt value) := fun index value read =>
                  ⟨kills, index, value, read, rfl⟩
                exact ⟨_, rfl, liftJob_onControl (killCommand_acts errors told)⟩
              · split
                · exact ⟨_, rfl, liftJob_onControl
                    (jobCommand_acts errors _ (putJobInForeground_acts printed))⟩
                · split
                  · exact ⟨_, rfl, liftJob_onControl
                      (jobCommand_acts errors _ continueJobInBackground_acts)⟩
                  · exact ⟨_, rfl, .pure _⟩
  obtain ⟨events, trace, deeds⟩ := acts (start.calling call)
  refine ⟨events, ?_, deeds⟩
  rw [same]
  exact trace.trans (List.append_assoc _ _ _)

end Jsh
