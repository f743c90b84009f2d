import Jsh.Deeds
import Jsh.HandshakeRuns
import Jsh.JobGroups
import Jsh.RunInvariants

/-!
# Signals of the shell

Whom the shell signals: the processes it has launched, their process groups, and the
processes that arguments of `kill` name. A job of built-ins has no process group, and a
signal to it goes to the process group of the shell itself.
-/

set_option autoImplicit false

namespace Jsh

open Library

/-! ## Whom the shell may signal -/

/-- The process group has been led by a process of the shell; or there is none, after a
background command made of several built-ins. -/
def Leads (trace : List Event) (pgid : Int) : Prop :=
  pgid = 0 ∧ GrouplessCommand trace ∨ ∃ child, .child child ∈ trace ∧ child.pid = pgid

/-- After these events the signal is a probe, goes to the group of the shell after a background
command made of several built-ins, to a process that has been launched or to the group it
leads, or to a process that an argument of `kill` names. -/
def MaySignal (trace : List Event) (target signal : Int) : Prop :=
  signal = 0 ∨ target = 0 ∧ GrouplessCommand trace ∨
    (∃ child, .child child ∈ trace ∧ (target = child.pid ∨ target = -child.pid)) ∨
    ∃ call, .call call ∈ trace ∧ call.Names target

/-- The jobs in the table have groups of the shell, and so had those that were sent a signal;
and each signal went where it might go after the events before it. -/
structure Signalled (control : Control) : Prop where
  jobs : ∀ job ∈ control.table.jobs, Leads control.trace job.pgid
  sent : ∀ job target signal, .signalJob job target signal ∈ control.trace →
    Leads control.trace job.pgid
  kills : ∀ before target signal, before ++ [.kill target signal] <+: control.trace →
    MaySignal before target signal

theorem Leads.mono {before after : List Event} {pgid : Int} (leads : Leads before pgid)
    (grows : before <+: after) : Leads after pgid := by
  refine leads.imp (And.imp_right (.mono grows)) fun found => ?_
  obtain ⟨child, recorded, same⟩ := found
  exact ⟨child, grows.mem recorded, same⟩

theorem MaySignal.mono {before after : List Event} {target signal : Int}
    (may : MaySignal before target signal) (grows : before <+: after) :
    MaySignal after target signal := by
  refine may.imp_right fun found => found.imp (And.imp_right (.mono grows)) fun found =>
    found.imp ?_ ?_
  · intro ⟨child, recorded, reached⟩
    exact ⟨child, grows.mem recorded, reached⟩
  · intro ⟨call, recorded, names⟩
    exact ⟨call, grows.mem recorded, names⟩

/-- A process of the shell may be signalled, and so may the group it leads. -/
theorem Leads.maySignal {trace : List Event} {pgid target : Int} (leads : Leads trace pgid)
    (reached : target = pgid ∨ target = -pgid) (signal : Int) :
    MaySignal trace target signal := by
  rcases leads with ⟨none, ran⟩ | ⟨child, recorded, same⟩
  · exact .inr (.inl ⟨by omega, ran⟩)
  · rw [← same] at reached
    exact .inr (.inr (.inl ⟨child, recorded, reached⟩))

/-! ## Steps -/

/-- An item of two lists together belongs to the first one, or comes after it. -/
theorem concat_prefix_append {α : Type} {before first second : List α} {item : α}
    (listed : before ++ [item] <+: first ++ second) :
    before ++ [item] <+: first ∨ first <+: before ∧ item ∈ second := by
  rcases List.prefix_or_prefix_of_prefix listed (List.prefix_append first second) with
    inside | beyond
  · exact .inl inside
  · rcases List.prefix_concat_iff.mp beyond with same | earlier
    · exact .inl (same ▸ List.prefix_refl _)
    · obtain ⟨rest, rfl⟩ := earlier
      rw [List.append_assoc, List.prefix_append_right_inj] at listed
      exact .inr ⟨List.prefix_append _ _, listed.subset (List.mem_append_right _ (.head _))⟩

section Steps

variable {added : Job → Prop} {start finish : Control}

/-- The groups of the jobs in the table, and of those that have been sent a signal. -/
def GroupsLed (lead : Int → Prop) (control : Control) : Prop :=
  (∀ job ∈ control.table.jobs, lead job.pgid) ∧
    ∀ job target signal, .signalJob job target signal ∈ control.trace → lead job.pgid

/-- Job control sends signals to jobs in the table. -/
theorem Move.groupsLed {lead : Int → Prop} (moved : Move added start finish)
    (allowed : ∀ job, added job → lead job.pgid) (led : GroupsLed lead start) :
    GroupsLed lead finish := by
  obtain ⟨jobs, sent⟩ := led
  refine ⟨@Move.jobs added (fun job => lead job.pgid) _ _ moved
    (fun updated held => updated.pgid ▸ held) (fun {job} _ enters => allowed job enters) jobs, ?_⟩
  intro job target signal recorded
  have stored : ∀ table, .signalJob job target signal ∈ (start.store table).trace →
      lead job.pgid := by
    intro table recorded
    rcases List.mem_append.mp recorded with old | new
    · exact sent job target signal old
    · cases List.mem_singleton.mp new
  cases moved with
  | quiet quietly =>
      obtain ⟨events, grown, quiet⟩ := quietly.trace
      rw [grown] at recorded
      rcases List.mem_append.mp recorded with old | new
      · exact sent job target signal old
      · exact (quiet _ new).elim
  | signal number found =>
      rcases List.mem_append.mp recorded with old | new
      · exact sent job target signal old
      · cases List.mem_singleton.mp new
        exact jobs _ (JobTable.mem_jobs_of_slot found)
  | update _ _ | remove _ | grow _ _ _ _ | add _ _ => exact stored _ recorded

theorem ShellCourse.groupsLed {lead : Int → Prop} {start finish : Shell}
    (course : ShellCourse added start finish) (allowed : ∀ job, added job → lead job.pgid)
    (led : GroupsLed lead start.control) : GroupsLed lead finish.control := by
  refine course.preserves (GroupsLed lead) (fun moved => moved.groupsLed allowed) ?_ led
  intro control event ofCalls led
  refine ⟨led.1, fun job target signal recorded => ?_⟩
  rcases List.mem_append.mp recorded with old | new
  · exact led.2 job target signal old
  · rw [← List.mem_singleton.mp new] at ofCalls
    exact ofCalls.elim

/-- Deeds leave the rule as it is, where they signal groups that processes of the shell have
led before. -/
theorem Signalled.deeds {fds : List Int} {named : Int → Prop} {events : List Event}
    (signalled : Signalled start) (same : finish.trace = start.trace ++ events)
    (deeds : Deeds fds named events)
    (groups : GroupsLed (Leads start.trace) start → GroupsLed (Leads start.trace) finish)
    (told : ∀ target, named target → ∃ call, .call call ∈ start.trace ∧ call.Names target) :
    Signalled finish := by
  have grows : start.trace <+: finish.trace := ⟨events, same.symm⟩
  obtain ⟨jobs, sent⟩ := groups ⟨signalled.jobs, signalled.sent⟩
  constructor
  · exact fun job member => (jobs job member).mono grows
  · exact fun job target signal recorded => (sent job target signal recorded).mono grows
  · intro before target signal recorded
    rw [same] at recorded
    rcases concat_prefix_append recorded with old | ⟨earlier, new⟩
    · exact signalled.kills before target signal old
    · refine MaySignal.mono ?_ earlier
      rcases deeds.kill_mem new with probe | named | ⟨job, rfl, signals⟩
      · exact .inl probe
      · exact .inr (.inr (.inr (told target named)))
      · have leads := sent job _ signal (same ▸ List.mem_append_right _ signals)
        exact leads.maySignal (.inr rfl) signal

/-- An event after which the table is the same. -/
theorem Signalled.record {event : Event} (signalled : Signalled start)
    (table : finish.table = start.table) (trace : finish.trace = start.trace ++ [event])
    (may : ∀ target signal, event = .kill target signal → MaySignal start.trace target signal)
    (unsignalled : ∀ job target signal, event ≠ .signalJob job target signal) :
    Signalled finish := by
  have grows : start.trace <+: finish.trace := ⟨[event], trace.symm⟩
  constructor
  · intro job member
    rw [table] at member
    exact (signalled.jobs job member).mono grows
  · intro job target signal recorded
    rw [trace] at recorded
    rcases List.mem_append.mp recorded with old | new
    · exact (signalled.sent job target signal old).mono grows
    · exact absurd (List.mem_singleton.mp new).symm (unsignalled job target signal)
  · intro before target signal recorded
    rw [trace] at recorded
    rcases concat_prefix_append recorded with old | ⟨earlier, new⟩
    · exact signalled.kills before target signal old
    · exact (may target signal (List.mem_singleton.mp new).symm).mono earlier

end Steps

/-! ## Parts of a run -/

/-- The rule is kept so far, and these are groups of the shell. -/
structure Leading (pgids : List Int) (control : Control) : Prop where
  signalled : Signalled control
  leads : ∀ pgid ∈ pgids, Leads control.trace pgid

section Parts

variable {environment : Environment} {pgids : List Int}

theorem Leading.ends {α : Type} {action : ShellAction α} {start : Shell}
    (leading : Leading pgids start.control)
    (keeps : Moves (OnControl (Preserves (Leading pgids))) action) :
    Ends (fun finish => Signalled finish.control) start action :=
  (keeps start leading).signalled

/-- A part that only signals jobs of the table, and puts jobs with these groups there. -/
theorem leading_of_acts {α : Type} {action : ShellAction α} {added : Job → Prop} {fds : List Int}
    (course : Moves (ShellCourse added) action)
    (acts : Moves (OnControl (Acts fds fun _ => False)) action)
    (allowed : ∀ job, added job → job.pgid ∈ pgids) :
    Moves (OnControl (Preserves (Leading pgids))) action := by
  intro start leading
  obtain ⟨events, same, deeds⟩ := acts start
  constructor
  · apply leading.signalled.deeds same deeds
    · exact ShellCourse.groupsLed (course start) fun job enters =>
        leading.leads job.pgid (allowed job enters)
    · exact fun _ told => told.elim
  · exact fun pgid member => (leading.leads pgid member).mono ⟨events, same.symm⟩

/-- The same for a part of job control that leaves the table as it is. -/
theorem leading_of_quiet {α : Type} {action : JobAction α} (quiet : Moves Quietly action)
    (acts : Moves (Acts [] fun _ => False) action) :
    Moves (OnControl (Preserves (Leading pgids))) (liftJob action) :=
  @leading_of_acts _ _ _ (fun _ => False) _ (ShellCourse.ofCalm (liftJob_quiet quiet))
    (liftJob_onControl acts) fun _ enters => enters.elim

theorem outcome_leading {α : Type} (outcomes : Nat → α) :
    Moves (OnControl (Preserves (Leading pgids))) (liftJob (outcome outcomes)) :=
  leading_of_quiet (quietly_of_silent (outcome_silent outcomes)) (outcome_acts outcomes)

theorem modifyKernel_leading (update : Kernel → Kernel) :
    Moves (OnControl (Preserves (Leading pgids))) (modifyKernel update) :=
  fun _ leading => leading

theorem pipe_leading : Moves (OnControl (Preserves (Leading pgids))) (pipe environment) :=
  fun _ leading => leading

theorem record_leading {event : Event} (unsent : ∀ target signal, event ≠ .kill target signal)
    (unsignalled : ∀ job target signal, event ≠ .signalJob job target signal) :
    Moves (OnControl (Preserves (Leading pgids))) (liftJob (record event)) := by
  intro start leading
  constructor
  · exact leading.signalled.record rfl rfl
      (fun target signal same => absurd same (unsent target signal)) unsignalled
  · exact fun pgid member => (leading.leads pgid member).mono (List.prefix_append _ _)

theorem executeInternalCommand_leading (call : CommandCall) :
    Moves (OnControl (Preserves (Leading pgids))) (executeInternalCommand environment call) := by
  intro start leading
  obtain ⟨events, same, deeds⟩ := executeInternalCommand_performs environment call start
  have course := @executeInternalCommand_moves (fun _ => False) environment call start
  have called : Signalled (start.calling call).control :=
    leading.signalled.record rfl rfl (by simp) (by simp)
  constructor
  · apply called.deeds (same.trans (List.append_cons _ _ _)) deeds
    · intro led
      refine ShellCourse.groupsLed course (fun _ enters => enters.elim) ⟨led.1, ?_⟩
      exact fun job target signal recorded =>
        led.2 job target signal (List.mem_append_left _ recorded)
    · exact fun target names => ⟨call, List.mem_append_right _ (.head _), names⟩
  · exact fun pgid member => (leading.leads pgid member).mono ⟨_, same.symm⟩

/-! ## Launching -/

theorem kill_leading {pgid target : Int} (member : pgid ∈ pgids)
    (reached : target = pgid ∨ target = -pgid) (signal : Int) :
    Moves (OnControl (Preserves (Leading pgids))) (liftJob (kill environment target signal)) := by
  have recorded : Moves (OnControl (Preserves (Leading pgids)))
      (liftJob (record (.kill target signal))) := by
    intro start leading
    constructor
    · refine leading.signalled.record rfl rfl (fun _ _ same => ?_) (by simp)
      cases same
      exact (leading.leads pgid member).maySignal reached signal
    · exact fun pgid member => (leading.leads pgid member).mono (List.prefix_append _ _)
  have answered : Moves (OnControl (Preserves (Leading pgids)))
      (liftJob (outcome fun count => environment.kill count target signal)) := outcome_leading _
  exact fun start leading => answered _ (recorded start leading)

/-- What follows the launch of a process may signal it. -/
theorem recordChild_leading {α : Type} {action : Unit → ShellAction α} (child : Child)
    (rest : Moves (OnControl (Preserves (Leading (child.pid :: pgids)))) (action ())) :
    Moves (OnControl (Preserves (Leading pgids))) (liftJob (record (.child child)) >>= action) := by
  intro start leading
  have recorded : Leading pgids (start.recording (.child child)).control :=
    record_leading (by simp) (by simp) start leading
  have leads : Leads (start.recording (.child child)).control.trace child.pid :=
    .inr ⟨child, List.mem_append_right _ (.head _), rfl⟩
  have ended := rest (start.recording (.child child))
    ⟨recorded.signalled, List.forall_mem_cons.mpr ⟨leads, recorded.leads⟩⟩
  exact ⟨ended.signalled, fun pgid member => ended.leads pgid (.tail _ member)⟩

theorem forkCall_leading (command : Command) (call : CommandCall) (job : Job) (fd fd2 : Int × Int) :
    Moves (OnControl (Preserves (Leading pgids)))
      (forkCall environment command call job fd fd2) := by
  refine (outcome_leading environment.fork).bind fun forked => ?_
  cases forked with
  | none => exact .pure _
  | some pid =>
      refine Moves.get.bind fun shell => ?_
      refine recordChild_leading _ ?_
      refine (modifyKernel_leading _).bind fun _ => ?_
      refine (outcome_leading _).bind fun told => ?_
      split
      · exact (kill_leading (.head _) (.inl rfl) sigkill).bind fun _ => .pure _
      · refine (modifyKernel_leading _).bind fun _ => ?_
        refine (outcome_leading _).bind fun answered => ?_
        split
        · exact (kill_leading (.head _) (.inl rfl) sigkill).bind fun _ => .pure _
        · exact (modifyKernel_leading _).bind fun _ => .pure _

theorem executeSingleCommand_leading (command : Command) (call : CommandCall) (job : Job) :
    Moves (OnControl (Preserves (Leading pgids)))
      (executeSingleCommand environment command call job) :=
  executeSingleCommand_parts (fun _ => executeInternalCommand_leading call)
    (record_leading (by simp) (by simp)) pipe_leading (forkCall_leading command call job)

/-- The process group of the job, if it has one. -/
def Job.groups (job : Job) : List Int := if job.pgid = 0 then [] else [job.pgid]

theorem Job.mem_groups {job : Job} {pgid : Int} :
    pgid ∈ job.groups ↔ job.pgid ≠ 0 ∧ pgid = job.pgid := by
  unfold Job.groups
  split
  · next none => simp [none]
  · next some => simp [some]

/-- The launch of the calls of a command: however it ends the rule is kept, and the group of
the job it returns is one of the shell. -/
def LaunchLeads (action : ShellAction (Option InternalExitInfo × Job)) (start : Shell) : Prop :=
  Ends (fun finish => Signalled finish.control) start action ∧
    ∀ result finish, action start = .ok result finish →
      ∀ pgid ∈ result.2.groups, Leads finish.control.trace pgid

theorem LaunchLeads.pure {info : Option InternalExitInfo} {job : Job} {start : Shell}
    (leading : Leading job.groups start.control) : LaunchLeads (pure (info, job)) start := by
  refine ⟨leading.signalled, fun result finish ran => ?_⟩
  cases ran
  exact leading.leads

theorem LaunchLeads.bind {α : Type} {first : ShellAction α}
    {next : α → ShellAction (Option InternalExitInfo × Job)} {start : Shell}
    (before : Ends (fun finish => Signalled finish.control) start first)
    (after : ∀ middle state, first start = .ok middle state → LaunchLeads (next middle) state) :
    LaunchLeads (first >>= next) start := by
  constructor
  · exact .bind (fun _ _ ran => before.of_error ran) fun middle state ran =>
      (after middle state ran).1
  · intro result finish ran
    obtain ⟨middle, state, ran, rest⟩ := bind_eq_ok.mp ran
    exact (after middle state ran).2 result finish rest

theorem leads_of_forks {shell : Shell} {pid : Int} {call : CommandCall}
    (forked : (pid, call) ∈ shell.forks) : Leads shell.control.trace pid := by
  obtain ⟨event, recorded, same⟩ := List.mem_filterMap.mp forked
  cases event with
  | child launched =>
      cases same
      exact .inr ⟨launched, recorded, rfl⟩
  | _ => cases same

/-- The job of a call keeps the group it has, or gets that of the first process. -/
theorem executeSingleCommand_leads {command : Command} {call : CommandCall} {job : Job}
    {result : Option InternalExitInfo × Job} {start finish : Shell}
    (leading : Leading job.groups start.control)
    (ran : executeSingleCommand environment command call job start = .ok result finish) :
    Leading result.2.groups finish.control := by
  obtain ⟨info, job'⟩ := result
  have ended := (executeSingleCommand_leading command call job start).of_ok ran leading
  refine ⟨ended.signalled, ?_⟩
  have led : ∀ pid, (pid, call) ∈ finish.forks →
      ∀ pgid ∈ (job.led pid).groups, Leads finish.control.trace pgid := by
    intro pid forked pgid member
    unfold Job.led at member
    split at member
    · rw [(Job.mem_groups.mp member).2]
      exact leads_of_forks forked
    · exact ended.leads pgid member
  have last : ∀ pid, (pid, call) ∈ start.forks ++ [(pid, call)] := fun _ =>
    List.mem_append_right _ (.head _)
  rcases executeSingleCommand_ends ran with ⟨_, same, _⟩ | ⟨_, ends⟩
  · rw [same]
    exact ended.leads
  · generalize forks : finish.forks = total at ends
    cases ends with
    | unforked => exact ended.leads
    | @failed pid _ => exact led pid (forks ▸ last pid)
    | @launched pid _ => exact led pid (forks ▸ last pid)

theorem executeCalls_leads (command : Command) (calls : List CommandCall) :
    ∀ (index : Nat) (info : Option InternalExitInfo) (job : Job) (start : Shell),
      Leading job.groups start.control →
      LaunchLeads (executeCalls environment command index info job calls) start := by
  induction calls with
  | nil => exact fun _ _ _ _ leading => .pure leading
  | cons call rest ih =>
      intro index info job start leading
      have single := @executeSingleCommand_leading environment job.groups command call job
      refine LaunchLeads.bind (leading.ends single) fun result middle ran => ?_
      have launched := executeSingleCommand_leads leading ran
      obtain ⟨info', job'⟩ := result
      cases info' with
      | none =>
          dsimp only
          split
          · next grouped =>
            have killed : Moves (OnControl (Preserves (Leading job'.groups)))
                (liftJob (kill environment (-job'.pgid) sigkill)) :=
              kill_leading (Job.mem_groups.mpr ⟨grouped, rfl⟩) (.inr rfl) sigkill
            refine LaunchLeads.bind (launched.ends killed) fun _ _ ran => ?_
            exact .pure ((killed middle).of_ok ran launched)
          · exact .pure launched
      | some first =>
          refine ih _ _ _ _ ?_
          split
          · exact launched
          · exact launched

/-- A job with one of these groups enters the table. -/
theorem keepJob_leading {job : Job} (member : job.pgid ∈ pgids) (info : InternalExitInfo) :
    Moves (OnControl (Preserves (Leading pgids))) (liftJob (keepJob info job)) := by
  have kept : Moves (Course fun other => other.pgid ∈ pgids) (keepJob info job) :=
    keepJob_moves member info
  have acts : Moves (Acts [stderrFileno] fun _ => False) (keepJob info job) :=
    keepJob_acts (.head _) info job
  exact leading_of_acts (fun start => liftJob_course (kept start.control))
    (liftJob_onControl acts) fun _ enters => enters

/-- A job that has a process has a group. -/
theorem executeAsJob_grouped {command : Command} {info : InternalExitInfo} {job : Job}
    {start launched : Shell}
    (ran : executeAsJob environment command (setupJob command) start =
      .ok (some info, job) launched) :
    (job.HasSubjob → job.pgid ∈ job.groups) ∧
      ((∃ call ∈ command.commandCalls, isInternalCommand call = false) → job.HasSubjob) := by
  have room : 0 + command.commandCalls.length ≤ (setupJob command).subjobs.length := by
    simp [setupJob, newJob]
  obtain ⟨grouped, _, external⟩ := executeCalls_ok ran room (grouped_setupJob command)
  exact ⟨fun has => Job.mem_groups.mpr ⟨(grouped.pgid has).ne', rfl⟩, external⟩

/-- The job of a background command that is no single built-in. -/
theorem executeAsJob_leads {command : Command} {later : List (Option Command)}
    {info : InternalExitInfo} {job : Job} {start launched : Shell}
    (recorded : .command command later ∈ start.control.trace)
    (several : ∀ call, isInternalCommand call = true → command.commandCalls ≠ [call])
    (background : command.background = true)
    (ran : executeAsJob environment command (setupJob command) start =
      .ok (some info, job) launched)
    (led : ∀ pgid ∈ job.groups, Leads launched.control.trace pgid) :
    Leads launched.control.trace job.pgid := by
  obtain ⟨group, external⟩ := executeAsJob_grouped ran
  by_cases ungrouped : job.pgid = 0
  · have groupless : command.Groupless := by
      refine ⟨background, fun call member => ?_⟩
      by_contra outside
      have has := external ⟨call, member, by simpa using outside⟩
      exact (Job.mem_groups.mp (group has)).1 ungrouped
    have length : command.commandCalls.length ≠ 1 := fun one => by
      obtain ⟨call, single⟩ := List.length_eq_one_iff.mp one
      exact several call (groupless.2 call (by simp [single])) single
    have course : Moves (ShellCourse fun _ => False)
        (executeAsJob environment command (setupJob command)) :=
      executeCalls_moves environment command command.commandCalls 0 none _
    have grows := ((course start).of_ok ran).grows
    exact .inl ⟨ungrouped, command, later, grows.subset recorded, groupless, length⟩
  · exact led job.pgid (Job.mem_groups.mpr ⟨ungrouped, rfl⟩)

theorem executeExternalCommand_leading {command : Command} {later : List (Option Command)}
    {start : Shell} (recorded : .command command later ∈ start.control.trace)
    (several : ∀ call, isInternalCommand call = true → command.commandCalls ≠ [call])
    (signalled : Signalled start.control) :
    Ends (fun finish => Signalled finish.control) start
      (executeExternalCommand environment command) := by
  have launches := @executeCalls_leads environment command command.commandCalls 0 none
    (setupJob command) start ⟨signalled, fun _ member => by cases member⟩
  refine Ends.bind (fun _ _ ran => launches.1.of_error ran) fun result launched ran => ?_
  obtain ⟨info, job⟩ := result
  have led : Leading job.groups launched.control := ⟨launches.1.of_ok ran, launches.2 _ _ ran⟩
  cases info with
  | none => exact led.ends ((modifyKernel_leading _).bind fun _ => .pure _)
  | some info =>
      cases background : command.background with
      | true =>
          have leads := executeAsJob_leads recorded several background ran led.leads
          have led' : Leading [job.pgid] launched.control :=
            ⟨led.signalled, List.forall_mem_singleton.mpr leads⟩
          exact led'.ends ((modifyKernel_leading _).bind fun _ => keepJob_leading (.head _) info)
      | false =>
          refine led.ends ((modifyKernel_leading _).bind fun _ => ?_)
          intro closed
          have waits : Moves (OnControl (Preserves (Leading job.groups)))
              (liftJob (blockingWaitForJob environment job)) :=
            leading_of_quiet (blockingWaitForJob_moves environment job)
              (blockingWaitForJob_acts job)
          refine Ends.seq (waits closed) fun waited state ran' => ?_
          obtain ⟨exitCode, job'⟩ := waited
          obtain ⟨control, waited, rfl⟩ := liftJob_eq_ok.mp ran'
          have updated := blockingWaitForJob_ok waited
          have given : Moves (OnControl (Preserves (Leading job.groups)))
              (liftJob (tcsetpgrp environment environment.shellPgid)) :=
            leading_of_quiet (tcsetpgrp_moves environment _) (tcsetpgrp_acts _)
          refine Ends.seq (given _) fun _ _ _ => ?_
          split
          · exact Moves.throw _ _
          · split
            · exact Moves.pure _ _
            · next succeeded =>
              split
              · exact Moves.pure _ _
              · next alive =>
                have unfinished := blockingWaitForJob_unfinished waited succeeded alive
                have has := updated.hasSubjob.mp (Job.hasSubjob_of_unfinished unfinished)
                have member := (executeAsJob_grouped ran).1 has
                exact keepJob_leading (updated.pgid ▸ member) info _

theorem executeCommand_leading {command : Command} {later : List (Option Command)} {start : Shell}
    (recorded : .command command later ∈ start.control.trace) :
    Ends (OnControl (Preserves (Leading [])) start) start
      (executeCommand environment command) := by
  apply executeCommand_ends
  · rcases runCommand_eq environment command with ⟨call, _, _, same⟩ | ⟨several, same⟩
    · rw [same]
      exact ((executeInternalCommand_leading call).bind fun _ => .pure _) start
    · rw [same]
      intro leading
      exact ⟨executeExternalCommand_leading recorded several leading.signalled,
        fun _ member => by cases member⟩
  · exact fun _ _ leading => leading
  · exact fun exitCode shell => record_leading (by simp) (by simp) shell

end Parts

/-! ## Runs of the shell -/

theorem readLine_leading (environment : Environment) (line : CString) :
    Moves (OnControl (Preserves (Leading []))) (readLine environment line) := by
  refine Moves.get.bind fun shell => ?_
  refine (record_leading (by simp) (by simp)).bind fun _ => ?_
  exact fun _ leading => leading

/-- However a run ends, the shell has signalled nobody but the processes it had launched,
their groups and the processes that arguments of `kill` named, and its own group only after
a background command made of several built-ins. -/
theorem prompt_signals_own (environment : Environment) (cwd : CString)
    (inputs : List (Option CString)) :
    Ends (fun finish => ∀ before target signal,
        before ++ [.kill target signal] <+: finish.control.trace →
          MaySignal before target signal)
      (initInternals cwd) (prompt environment inputs) := by
  have update : Moves (OnControl (Preserves (Leading []))) (liftJob (updateJobs environment)) := by
    have course : Moves (Course fun _ => False) (updateJobs environment) :=
      updateJobs_moves environment
    have acts : Moves (Acts [stderrFileno] fun _ => False) (updateJobs environment) :=
      fdUpdateJobs_acts (.head _)
    exact leading_of_acts (fun start => liftJob_course (course start.control))
      (liftJob_onControl acts) fun _ enters => enters.elim
  have prompts : Moves (OnControl (Preserves (Leading []))) (getPromptString environment) :=
    leading_of_acts (ShellCourse.ofCalm (getPromptString_moves environment))
      (getPromptString_of_getCurrentWd (@getCurrentWd_acts [] _ environment))
      fun _ (enters : False) => enters.elim
  have event : ∀ (event : Event) (start : Shell), event.OfLoop →
      OnControl (Preserves (Leading [])) start (start.recording event) := by
    intro event start loop
    have unsent : ∀ target signal, event ≠ .kill target signal := by
      rintro _ _ rfl
      exact loop
    have unsignalled : ∀ job target signal, event ≠ .signalJob job target signal := by
      rintro _ _ _ rfl
      exact loop
    exact record_leading unsent unsignalled start
  have started : Leading [] (initInternals cwd).control := by
    have jobs : (initInternals cwd).control.table.jobs = [] := by
      simp [initInternals, initJobTable, JobTable.jobs]
    refine ⟨⟨?_, ?_, ?_⟩, fun _ member => by cases member⟩
    · rw [jobs]
      exact fun _ member => by cases member
    · exact fun _ _ _ recorded => by cases recorded
    · intro _ _ _ recorded
      obtain ⟨_, none⟩ := List.append_eq_nil_iff.mp (List.prefix_nil.mp recorded)
      cases none
  have ended := prompt_loops update prompts event (readLine_leading environment)
    (fun _ _ _ => executeCommand_leading (List.mem_append_right _ (.head _))) inputs
    (initInternals cwd)
  exact (ended started).signalled.kills

end Jsh
