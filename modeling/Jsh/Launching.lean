import Jsh.ShellMoves
import Jsh.Waits

/-!
# Launching the calls of a command

The job of a command whose calls have all been executed: a call that is a built-in
leaves its slot empty, any other call has a process in it.
-/

set_option autoImplicit false

namespace Jsh

open Library

/-- A process that has been launched has been recorded, and is the leader of the process
group if it is the first one. -/
theorem forkCall_ok {environment : Environment} {command : Command} {call : CommandCall}
    {job job' : Job} {fd fd2 : Int × Int} {launched : InternalExitInfo} {start finish : Shell}
    (ran : forkCall environment command call job fd fd2 start = .ok (some launched, job') finish) :
    0 < launched.pid ∧ launched.exitCode = uninitializedExitCode ∧
      job' = { job with pgid := if job.pgid = 0 then launched.pid else job.pgid } ∧
      ∃ descriptors, finish.control.trace =
        start.control.trace ++ [.child { pid := launched.pid, command, call, descriptors }] := by
  obtain ⟨forked, state, fork, ran⟩ := bind_eq_ok.mp ran
  cases forked with
  | none => cases ran
  | some pid =>
      have forkTrace : state.control.trace = start.control.trace := by
        obtain ⟨control, outcome, rfl⟩ := liftJob_eq_ok.mp fork
        injection outcome with _ same
        rw [← same]
      obtain ⟨_, _, got, ran⟩ := bind_eq_ok.mp ran
      cases got
      obtain ⟨_, _, recorded, ran⟩ := bind_eq_ok.mp ran
      cases recorded
      obtain ⟨_, _, closed, ran⟩ := bind_eq_ok.mp ran
      cases closed
      obtain ⟨told, _, write, ran⟩ := bind_eq_ok.mp ran
      cases write
      split at ran
      · obtain ⟨_, _, _, same⟩ := bind_eq_ok.mp ran
        cases same
      · obtain ⟨_, _, closed, ran⟩ := bind_eq_ok.mp ran
        cases closed
        obtain ⟨answered, _, read, ran⟩ := bind_eq_ok.mp ran
        cases read
        split at ran
        · obtain ⟨_, _, _, same⟩ := bind_eq_ok.mp ran
          cases same
        · obtain ⟨_, _, closed, same⟩ := bind_eq_ok.mp ran
          cases closed
          cases same
          refine ⟨pid.property, rfl, ?_, (childKernel command call fd fd2 state.parser.kernel).descriptors,
            ?_⟩
          · split <;> rfl
          · rw [← forkTrace]

/-- A call that is no built-in is launched in a process. -/
theorem executeSingleCommand_forked {environment : Environment} {command : Command}
    {call : CommandCall} {job job' : Job} {launched : InternalExitInfo} {start finish : Shell}
    (external : isInternalCommand call = false)
    (ran : executeSingleCommand environment command call job start =
      .ok (some launched, job') finish) :
    0 < launched.pid ∧ launched.exitCode = uninitializedExitCode ∧
      job' = { job with pgid := if job.pgid = 0 then launched.pid else job.pgid } ∧
      ∃ descriptors, finish.control.trace = start.control.trace ++ [.call call] ++
        [.child { pid := launched.pid, command, call, descriptors }] := by
  unfold executeSingleCommand at ran
  rw [if_neg (by simp [external])] at ran
  obtain ⟨_, _, recorded, ran⟩ := bind_eq_ok.mp ran
  cases recorded
  obtain ⟨first, piped, pipes, ran⟩ := bind_eq_ok.mp ran
  have firstTrace : piped.control.trace = start.control.trace ++ [.call call] := by
    cases pipes
    rfl
  cases first with
  | none => cases ran
  | some fd =>
      obtain ⟨second, piped', pipes, ran⟩ := bind_eq_ok.mp ran
      have secondTrace : piped'.control.trace = piped.control.trace := by
        cases pipes
        rfl
      cases second with
      | none => cases ran
      | some fd2 =>
          rw [← firstTrace, ← secondTrace]
          exact forkCall_ok ran

theorem executeSingleCommand_ok {environment : Environment} {command : Command} {call : CommandCall}
    {job job' : Job} {launched : InternalExitInfo} {start finish : Shell}
    (ran : executeSingleCommand environment command call job start =
      .ok (some launched, job') finish) :
    isInternalCommand call = true ∧ launched.pid = uninitializedPid ∧
        executeInternalCommand environment call start = .ok launched.exitCode finish ∧ job' = job ∨
      isInternalCommand call = false ∧ 0 < launched.pid ∧
        launched.exitCode = uninitializedExitCode ∧
        job' = { job with pgid := if job.pgid = 0 then launched.pid else job.pgid } := by
  cases internal : isInternalCommand call with
  | true =>
      unfold executeSingleCommand at ran
      rw [if_pos internal] at ran
      obtain ⟨_, _, executed, same⟩ := bind_eq_ok.mp ran
      cases same
      exact .inl ⟨rfl, rfl, executed, rfl⟩
  | false =>
      obtain ⟨positive, exitCode, group, _⟩ := executeSingleCommand_forked internal ran
      exact .inr ⟨rfl, positive, exitCode, group⟩

/-- The slot of a call after its launch. -/
inductive LaunchedAs : CommandCall → Option Subjob → Prop
  | internal {call : CommandCall} : isInternalCommand call = true → LaunchedAs call none
  | external {call : CommandCall} {pid : Int} : isInternalCommand call = false → 0 < pid →
      LaunchedAs call (some (newSubjob call pid .running))

theorem LaunchedAs.running {call : CommandCall} {subjob : Subjob}
    (launched : LaunchedAs call (some subjob)) : subjob.lastStatus = .running := by
  cases launched
  rfl

/-- The slots of the calls after those that have been executed. -/
theorem executeCalls_slots {environment : Environment} {command : Command}
    {calls : List CommandCall} :
    ∀ {slots : List (Option Subjob)} {info : Option InternalExitInfo} {job job' : Job}
      {chief : InternalExitInfo} {start finish : Shell},
      job.subjobs = slots ++ List.replicate calls.length none →
      executeCalls environment command slots.length info job calls start =
        .ok (some chief, job') finish →
      ∃ slots', List.Forall₂ LaunchedAs calls slots' ∧
        job' = { job with pgid := job'.pgid, subjobs := slots ++ slots' } := by
  induction calls with
  | nil =>
      intro slots info job job' chief start finish empty ran
      cases ran
      refine ⟨[], .nil, ?_⟩
      rw [List.length_nil, List.replicate_zero] at empty
      rw [← empty]
  | cons call rest ih =>
      intro slots info job job' chief start finish empty ran
      obtain ⟨⟨first, job₁⟩, state, single, continued⟩ := bind_eq_ok.mp ran
      rw [List.length_cons, List.replicate_succ] at empty
      cases first with
      | none =>
          dsimp only at continued
          split at continued
          · obtain ⟨_, _, _, same⟩ := bind_eq_ok.mp continued
            cases same
          · cases continued
      | some first =>
          dsimp only at continued
          rcases executeSingleCommand_ok single with
            ⟨internal, noPid, _, rfl⟩ | ⟨external, pid, _, rfl⟩
          · rw [if_neg (not_not.mpr noPid)] at continued
            have longer : slots.length + 1 = (slots ++ [none]).length := by simp
            rw [longer] at continued
            obtain ⟨slots', launched, same⟩ := ih (by simp [empty]) continued
            refine ⟨none :: slots', .cons (.internal internal) launched, ?_⟩
            rw [List.append_assoc] at same
            exact same
          · have different : first.pid ≠ uninitializedPid := by
              unfold uninitializedPid
              omega
            rw [if_pos different] at continued
            have longer : slots.length + 1 =
                (slots ++ [some (newSubjob call first.pid .running)]).length := by simp
            rw [longer] at continued
            obtain ⟨slots', launched, same⟩ := ih (by simp [empty]) continued
            refine ⟨some (newSubjob call first.pid .running) :: slots',
              .cons (.external external pid) launched, ?_⟩
            rw [List.append_assoc] at same
            exact same

/-- The job of a command that has been launched. -/
theorem executeAsJob_slots {environment : Environment} {command : Command} {start finish : Shell}
    {chief : InternalExitInfo} {job : Job}
    (ran : executeAsJob environment command (setupJob command) start =
      .ok (some chief, job) finish) :
    List.Forall₂ LaunchedAs command.commandCalls job.subjobs ∧
      job = { setupJob command with pgid := job.pgid, subjobs := job.subjobs } := by
  obtain ⟨slots, launched, same⟩ := executeCalls_slots
    (show (setupJob command).subjobs = [] ++ List.replicate command.commandCalls.length none
      from rfl) ran
  have subjobs : job.subjobs = slots := by
    rw [same]
    rfl
  rw [subjobs]
  exact ⟨launched, same⟩

/-- After the first call its info is kept. -/
theorem executeCalls_chief {environment : Environment} {command : Command}
    {calls : List CommandCall} :
    ∀ {index : Nat} {info chief : InternalExitInfo} {job job' : Job} {start finish : Shell},
      executeCalls environment command (index + 1) (some info) job calls start =
        .ok (some chief, job') finish → chief = info := by
  induction calls with
  | nil =>
      intro index info chief job job' start finish ran
      cases ran
      rfl
  | cons call rest ih =>
      intro index info chief job job' start finish ran
      obtain ⟨⟨first, job₁⟩, state, single, continued⟩ := bind_eq_ok.mp ran
      cases first with
      | none =>
          dsimp only at continued
          split at continued
          · obtain ⟨_, _, _, same⟩ := bind_eq_ok.mp continued
            cases same
          · cases continued
      | some first =>
          dsimp only at continued
          rw [if_neg (Nat.succ_ne_zero index)] at continued
          exact ih continued

/-- The info of a launched command is that of its first call. -/
theorem executeAsJob_chief {environment : Environment} {command : Command} {call : CommandCall}
    {rest : List CommandCall} {job job' : Job} {start finish : Shell} {chief : InternalExitInfo}
    (calls : command.commandCalls = call :: rest)
    (ran : executeAsJob environment command job start = .ok (some chief, job') finish) :
    isInternalCommand call = true ∧
        (∃ state, executeInternalCommand environment call start = .ok chief.exitCode state) ∨
      isInternalCommand call = false ∧ chief.exitCode = uninitializedExitCode := by
  unfold executeAsJob at ran
  rw [calls] at ran
  obtain ⟨⟨first, job₁⟩, state, single, continued⟩ := bind_eq_ok.mp ran
  cases first with
  | none =>
      dsimp only at continued
      split at continued
      · obtain ⟨_, _, _, same⟩ := bind_eq_ok.mp continued
        cases same
      · cases continued
  | some first =>
      dsimp only at continued
      rw [if_pos rfl] at continued
      cases executeCalls_chief continued
      rcases executeSingleCommand_ok single with
        ⟨internal, _, executed, _⟩ | ⟨external, _, marker, _⟩
      · exact .inl ⟨internal, state, executed⟩
      · exact .inr ⟨external, marker⟩

/-! ## Jobs that are kept -/

theorem keepJob_moves {added : Job → Prop} {job : Job} (allowed : added job)
    (info : InternalExitInfo) : Moves (Course added) (keepJob info job) :=
  (addJob_moves allowed).bind fun _ => (Course.ofQuiet (printJob_moves _ _)).bind fun _ => .pure _

theorem blockingWaitForJob_unfinished {environment : Environment} {job job' : Job} {exitCode : Int}
    {start finish : Control}
    (waited : blockingWaitForJob environment job start = .ok (exitCode, job') finish)
    (succeeded : exitCode ≠ -1)
    (alive : ¬ (job'.status = .done ∨ job'.status = .killed ∨ job'.status = .detached)) :
    isJobFinished job' = false := by
  obtain ⟨all, subjobs, pids, _, waits⟩ := blockingWaitForJob_eq environment job start
  rw [waits] at waited
  cases all with
  | false =>
      cases waited
      exact absurd rfl succeeded
  | true =>
      cases waited
      rw [← Job.finished_assessed, Bool.eq_false_iff]
      exact fun finished => alive (isFinishedStatus_iff.mp finished)

/-- The jobs that enter the table are those of the commands in the background, and those of
the commands in the foreground that are not finished. -/
theorem executeExternalCommand_course {added : Job → Prop} {environment : Environment}
    {command : Command} {start : Shell}
    (background : command.background = true → ∀ {info : InternalExitInfo} {job : Job}
      {launched : Shell}, executeAsJob environment command (setupJob command) start =
        .ok (some info, job) launched → added job)
    (foreground : command.background = false → ∀ {info : InternalExitInfo} {job : Job}
      {launched : Shell}, executeAsJob environment command (setupJob command) start =
        .ok (some info, job) launched →
      ∀ {job' : Job}, job.Updated job' → isJobFinished job' = false → added job') :
    Ends (ShellCourse added start) start (executeExternalCommand environment command) := by
  refine Ends.seq (executeCalls_moves environment command command.commandCalls 0 none
    (setupJob command) start) fun result launched launch => ?_
  obtain ⟨info, job⟩ := result
  refine Ends.seq (modifyKernel_moves _ launched) fun _ closed _ => ?_
  cases info with
  | none => exact Moves.pure _ _
  | some info =>
      dsimp only
      split
      · next kept => exact liftJob_course (keepJob_moves (background kept launch) info _)
      · next waits =>
        rw [Bool.not_eq_true] at waits
        have quiet := blockingWaitForJob_moves environment job
        refine Ends.seq (ShellCourse.ofCalm (liftJob_quiet quiet) closed) fun waited state ran => ?_
        obtain ⟨exitCode, job'⟩ := waited
        obtain ⟨control, waited, rfl⟩ := liftJob_eq_ok.mp ran
        refine Ends.seq (ShellCourse.ofCalm (liftJob_quiet (tcsetpgrp_moves environment _)) _)
          fun given _ _ => ?_
        split
        · exact Moves.throw _ _
        · split
          · exact Moves.pure _ _
          · next succeeded =>
            split
            · exact Moves.pure _ _
            · next alive =>
              refine liftJob_course (keepJob_moves ?_ info _)
              apply foreground waits launch (blockingWaitForJob_ok waited)
              exact blockingWaitForJob_unfinished waited succeeded alive

theorem runCommand_course {added : Job → Prop} {environment : Environment} {command : Command}
    {start : Shell}
    (external : (∀ call, isInternalCommand call = true → command.commandCalls ≠ [call]) →
      Ends (ShellCourse added start) start (executeExternalCommand environment command)) :
    Ends (ShellCourse added start) start (runCommand environment command) := by
  rcases runCommand_eq environment command with ⟨call, _, _, same⟩ | ⟨several, same⟩
  · rw [same]
    exact ((executeInternalCommand_moves environment call).bind fun _ => .pure _) start
  · rw [same]
    exact external several

end Jsh
