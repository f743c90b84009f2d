import Jsh.HandshakeCompletion
import Jsh.Inheritance
import Jsh.JobTable
import Jsh.Runs

/-!
# Launching among its interleavings

What `execute_as_job` returns and the children it leaves, when the handshakes are taken as
single steps of the shell, are what it returns and leaves in one of the interleavings with
its children.
-/

set_option autoImplicit false

namespace Jsh

open Library

/-! ## Children of the shell -/

/-- The process that has been forked and the call it is to execute. -/
def Event.forked? : Event → Option (Int × CommandCall)
  | .child launched => some (launched.pid, launched.call)
  | _ => none

/-- The processes that have been forked, in their order. -/
def Shell.forks (shell : Shell) : List (Int × CommandCall) :=
  shell.control.trace.filterMap Event.forked?

theorem forked_of_childless {events : List Event}
    (childless : ∀ event ∈ events, event.Childless) : events.filterMap Event.forked? = [] := by
  refine List.filterMap_eq_nil_iff.mpr fun event member => ?_
  have free := childless event member
  cases event with
  | child => exact free.elim
  | _ => rfl

theorem forks_of_childless {start finish : Shell}
    (recorded : Recorded Event.Childless start.control.trace finish.control.trace) :
    finish.forks = start.forks := by
  obtain ⟨events, same, childless⟩ := recorded
  rw [Shell.forks, same, List.filterMap_append, forked_of_childless childless, List.append_nil,
    Shell.forks]

section Launch

variable {environment : Environment} {command : Command} {call : CommandCall} {job job' : Job}
  {result : Option InternalExitInfo} {start finish : Shell}

/-- The job with its first process as the leader of its process group. -/
def Job.led (job : Job) (pid : Int) : Job :=
  if job.pgid = 0 then { job with pgid := pid } else job

/-- How the launch of a call that is no built-in ends. -/
inductive LaunchEnds (call : CommandCall) (job : Job) (forks : List (Int × CommandCall)) :
    Option InternalExitInfo → Job → List (Int × CommandCall) → Prop
  | unforked : LaunchEnds call job forks none job forks
  | failed {pid : Int} : 0 < pid →
      LaunchEnds call job forks none (job.led pid) (forks ++ [(pid, call)])
  | launched {pid : Int} : 0 < pid →
      LaunchEnds call job forks (some { pid, exitCode := uninitializedExitCode }) (job.led pid)
        (forks ++ [(pid, call)])

theorem LaunchEnds.dropped {before forks total : List (Int × CommandCall)}
    (ends : LaunchEnds call job (before ++ forks) result job' total) :
    ∃ forks', total = before ++ forks' ∧ LaunchEnds call job forks result job' forks' := by
  cases ends with
  | unforked => exact ⟨forks, rfl, .unforked⟩
  | failed positive => exact ⟨_, List.append_assoc _ _ _, .failed positive⟩
  | launched positive => exact ⟨_, List.append_assoc _ _ _, .launched positive⟩

theorem forkCall_ends {fd fd2 : Int × Int}
    (ran : forkCall environment command call job fd fd2 start = .ok (result, job') finish) :
    LaunchEnds call job start.forks result job' finish.forks := by
  obtain ⟨forked, state, fork, ran⟩ := bind_eq_ok.mp ran
  have calls : Sheds [] start state :=
    (Sheds.of_silent (outcome_silent environment.fork) start).of_ok fork
  have same := forks_of_childless calls.recorded
  cases forked with
  | none =>
      cases ran
      exact same ▸ .unforked
  | some pid =>
      obtain ⟨_, _, got, ran⟩ := bind_eq_ok.mp ran
      cases got
      obtain ⟨_, recorded, record, ran⟩ := bind_eq_ok.mp ran
      cases record
      have rest := (forkCall_sheds pid.val (job.led pid) fd fd2 _).of_ok ran
      have forks := forks_of_childless rest.recorded
      have added : finish.forks = start.forks ++ [(pid.val, call)] := by
        rw [forks, ← same]
        simp [Shell.forks, Event.forked?]
      rw [added]
      obtain ⟨_, _, closed, ran⟩ := bind_eq_ok.mp ran
      cases closed
      obtain ⟨told, _, write, ran⟩ := bind_eq_ok.mp ran
      cases write
      split at ran
      · obtain ⟨_, _, _, same⟩ := bind_eq_ok.mp ran
        cases same
        exact .failed pid.property
      · obtain ⟨_, _, closed, ran⟩ := bind_eq_ok.mp ran
        cases closed
        obtain ⟨answered, _, read, ran⟩ := bind_eq_ok.mp ran
        cases read
        split at ran
        · obtain ⟨_, _, _, same⟩ := bind_eq_ok.mp ran
          cases same
          exact .failed pid.property
        · obtain ⟨_, _, closed, same⟩ := bind_eq_ok.mp ran
          cases closed
          cases same
          exact .launched pid.property

/-- No process is forked. -/
def ForksNothing (start finish : Shell) : Prop := finish.forks = start.forks

instance : Std.Refl ForksNothing where
  refl _ := rfl

instance : IsTrans Shell ForksNothing where
  trans _ _ _ before after := after.trans before

theorem ForksNothing.steps (environment : Environment) : ShellSteps environment ForksNothing where
  jobs := by
    refine (@Course.steps (fun _ => False) environment).mono ?_
    rintro _ _ course shell rfl
    exact forks_of_childless (course.recorded.mono fun _ => Event.OfJobs.childless)
  moved _ _ _ := rfl

theorem executeInternalCommand_forksNothing (environment : Environment) (call : CommandCall) :
    Moves ForksNothing (executeInternalCommand environment call) := by
  apply (ForksNothing.steps environment).executeInternalCommand
  · exact fun shell => forks_of_childless (.single _ trivial)
  · exact fun shell value => forks_of_childless (.single _ trivial)

theorem pipe_forksNothing (environment : Environment) : Moves ForksNothing (pipe environment) :=
  fun _ => rfl

theorem executeSingleCommand_ends
    (ran : executeSingleCommand environment command call job start = .ok (result, job') finish) :
    isInternalCommand call = true ∧ job' = job ∧ finish.forks = start.forks ∧
        (∃ exitCode, result = some { pid := uninitializedPid, exitCode }) ∨
      isInternalCommand call = false ∧
        LaunchEnds call job start.forks result job' finish.forks := by
  unfold executeSingleCommand at ran
  split at ran
  next internal =>
    obtain ⟨exitCode, state, executed, ran⟩ := bind_eq_ok.mp ran
    cases ran
    have same := (executeInternalCommand_forksNothing environment call start).of_ok executed
    exact .inl ⟨internal, rfl, same, exitCode, rfl⟩
  next external =>
    refine .inr ⟨Bool.not_eq_true _ ▸ external, ?_⟩
    obtain ⟨_, _, recorded, ran⟩ := bind_eq_ok.mp ran
    cases recorded
    have named : (start.calling call).forks = start.forks :=
      forks_of_childless (.single _ trivial)
    obtain ⟨first, piped, made, ran⟩ := bind_eq_ok.mp ran
    have same : piped.forks = start.forks :=
      ((pipe_forksNothing environment _).of_ok made).trans named
    cases first with
    | none =>
        cases ran
        rw [← same]
        exact .unforked
    | some fd =>
        obtain ⟨second, both, made', ran⟩ := bind_eq_ok.mp ran
        have same' : both.forks = start.forks :=
          ((pipe_forksNothing environment _).of_ok made').trans same
        rw [← same']
        cases second with
        | none =>
            cases ran
            exact .unforked
        | some fd2 => exact forkCall_ends ran

end Launch

/-! ## The same launch with its child -/

/-- The variables of the parent, and the processes of its children. -/
structure System.At (system : System) (phase : ParentPhase) (calls : List CommandCall)
    (index : Nat) (info : Option InternalExitInfo) (job : Job)
    (forks : List (Int × CommandCall)) : Prop where
  phase : system.phase = phase
  calls : system.calls = calls
  index : system.index = index
  info : system.info = info
  job : system.job = job
  forks : system.forks = forks

/-- The parent has returned. -/
structure System.Ended (system : System) (info : Option InternalExitInfo) (job : Job)
    (forks : List (Int × CommandCall)) : Prop where
  phase : system.phase = .returned info
  job : system.job = job
  forks : system.forks = forks

section Interleaving

variable {shellPgid : Int} {command : Command} {system : System} {call : CommandCall}
  {calls rest : List CommandCall} {index : Nat} {info : Option InternalExitInfo} {job : Job}
  {forks : List (Int × CommandCall)}

theorem System.forks_kill (target : ChildProcess → Bool) :
    (system.kill target).forks = system.forks := by
  rw [System.forks, System.kill, List.map_map]
  refine List.map_congr_left fun child _ => ?_
  dsimp only [Function.comp_apply]
  split <;> rfl

/-- After a failure the parent returns nothing. -/
theorem System.Reachable.fails (reached : system.Reachable shellPgid command)
    (at' : system.At .failed calls index info job forks) :
    ∃ next : System, next.Reachable shellPgid command ∧ next.Ended none job forks := by
  by_cases none : system.job.pgid = 0
  · exact ⟨_, reached.tail (.parent (.giveUp at'.phase none)), rfl, at'.job, at'.forks⟩
  · have killed := (System.forks_kill fun child => child.group = system.job.pgid).trans at'.forks
    exact ⟨_, reached.tail (.parent (.killGroup at'.phase none)), rfl, at'.job, killed⟩

/-- When no call fails, the child answers. -/
theorem System.Reachable.answered {stage : Stage} {pid : Int} {fd fd2 : Nat}
    (reached : system.Reachable shellPgid command) (clean : system.Clean)
    (at' : system.At (.handshake stage pid fd fd2) calls index info job forks) :
    ∃ next : System, next.Reachable shellPgid command ∧
      next.At (.handshake .answered pid fd fd2) calls index info job forks := by
  let Talk (first last : System) : Prop :=
    SystemStep shellPgid first last ∧ last.Clean ∧ first.Talks last
  have lowers : Lowers Talk System.remaining := fun first last talk =>
    systemStep_lowers shellPgid first last talk.1
  obtain ⟨last, run, ended⟩ := exists_end lowers system
  have both : last.Clean ∧ system.Talks last := by
    clear ended
    induction run with
    | refl => exact ⟨clean, refl_of _ _⟩
    | tail _ talk ih => exact ⟨talk.2.1, trans_of System.Talks ih.2 talk.2.2⟩
  obtain ⟨going, talks⟩ := both
  have reached' : last.Reachable shellPgid command :=
    reached.trans (Relation.ReflTransGen.mono (fun _ _ talk => talk.1) _ _ run)
  obtain ⟨stage', phase⟩ := talks.phase stage pid fd fd2 at'.phase
  have answered : stage' = .answered := by
    by_contra unanswered
    obtain ⟨next, talk⟩ := reached'.talks going phase unanswered
    exact ended next talk
  subst answered
  exact ⟨last, reached', phase, talks.calls.trans at'.calls, talks.index.trans at'.index,
    talks.info.trans at'.info, talks.job.trans at'.job, talks.forks.trans at'.forks⟩

/-- A call that is no built-in gets its process. -/
theorem System.Reachable.forked (reached : system.Reachable shellPgid command)
    (at' : system.At .calling (call :: rest) index info job forks)
    (external : isInternalCommand call = false) {pid : Int} (positive : 0 < pid) :
    ∃ (next : System) (fd fd2 : Nat), next.Reachable shellPgid command ∧ next.Clean ∧
      next.At (.handshake .closingRead pid fd fd2) (call :: rest) index info (job.led pid)
        (forks ++ [(pid, call)]) := by
  have piped := reached.tail (.parent (.pipe at'.phase at'.calls external))
  have both := piped.tail (.parent (.pipeAgain rfl))
  refine ⟨_, _, _, both.tail (.parent (.fork rfl at'.calls positive)), ?_, rfl, at'.calls,
    at'.index, at'.info, ?_, ?_⟩
  · intro child member same ended
    cases List.mem_append.mp member with
    | inl earlier =>
        have below := reached.invariant.made child earlier
        change child.fd2 = system.made + 1 at same
        omega
    | inr here =>
        rw [List.mem_singleton.mp here] at ended
        cases ended
  · rw [← at'.job]
    rfl
  · rw [← at'.forks]
    simp [System.forks, System.forked, System.piping]

/-- One call of the loop, which is no built-in. -/
theorem System.Reachable.launch (reached : system.Reachable shellPgid command)
    (at' : system.At .calling (call :: rest) index info job forks)
    (external : isInternalCommand call = false) {result : Option InternalExitInfo} {job' : Job}
    {forks' : List (Int × CommandCall)} (ends : LaunchEnds call job forks result job' forks') :
    ∃ next : System, next.Reachable shellPgid command ∧
      match result with
      | none => next.Ended none job' forks'
      | some launched =>
          next.At .calling rest (index + 1) (if index = 0 then some launched else info)
            (if launched.pid ≠ uninitializedPid then
              { job' with
                subjobs := job'.subjobs.set index (some (newSubjob call launched.pid .running)) }
            else job') forks' := by
  cases ends with
  | unforked =>
      have failed := reached.tail (.parent (.pipeFails at'.phase at'.calls external))
      exact System.Reachable.fails failed
        ⟨rfl, at'.calls, at'.index, at'.info, at'.job, at'.forks⟩
  | failed positive =>
      obtain ⟨next, fd, fd2, forked, _, begun⟩ := reached.forked at' external positive
      have closing := forked.tail (.parent (.closeRead begun.phase))
      have writing := closing.tail (.parent (.closeWrite rfl))
      have killing := writing.tail (.parent (.writeFails rfl))
      have failed := killing.tail (.parent (.kill rfl))
      exact System.Reachable.fails failed ⟨rfl, begun.calls, begun.index, begun.info, begun.job,
        (System.forks_kill _).trans begun.forks⟩
  | launched positive =>
      obtain ⟨next, fd, fd2, forked, clean, begun⟩ := reached.forked at' external positive
      obtain ⟨last, reached', at''⟩ := forked.answered clean begun
      refine ⟨_, reached'.tail (.parent (.closeAnswered at''.phase)), rfl, ?_, ?_, ?_, ?_,
        at''.forks⟩
      · simp only [System.continued, at''.calls, List.tail_cons]
      · simp only [System.continued, at''.index]
      · simp only [System.continued, at''.index, at''.info]
      · simp only [System.continued, at''.index, at''.calls, at''.job, List.head?_cons,
          Option.map_some]

/-- The loop of `execute_as_job`. -/
theorem executeCalls_interleaved {environment : Environment} {before : List (Int × CommandCall)}
    (calls : List CommandCall) :
    ∀ {index : Nat} {info result : Option InternalExitInfo} {job job' : Job}
      {forks : List (Int × CommandCall)} {start finish : Shell} {system : System},
      system.Reachable shellPgid command → system.At .calling calls index info job forks →
      start.forks = before ++ forks →
      executeCalls environment command index info job calls start = .ok (result, job') finish →
      ∃ (last : System) (forks' : List (Int × CommandCall)), last.Reachable shellPgid command ∧
        last.Ended result job' forks' ∧ finish.forks = before ++ forks' := by
  induction calls with
  | nil =>
      intro index info result job job' forks start finish system reached at' forked ran
      cases ran
      refine ⟨_, forks, reached.tail (.parent (.finish at'.phase at'.calls)), ?_, forked⟩
      exact ⟨by rw [at'.info], at'.job, at'.forks⟩
  | cons call rest ih =>
      intro index info result job job' forks start finish system reached at' forked ran
      obtain ⟨⟨launched, job₁⟩, middle, single, ran⟩ := bind_eq_ok.mp ran
      rcases executeSingleCommand_ends single with
        ⟨internal, rfl, same, exitCode, rfl⟩ | ⟨external, ends⟩
      · have next := reached.tail (.parent (.internal exitCode at'.phase at'.calls internal))
        refine ih next ⟨rfl, ?_, ?_, ?_, ?_, at'.forks⟩ (same.trans forked) ran
        · simp only [System.continued, at'.calls, List.tail_cons]
        · simp only [System.continued, at'.index]
        · simp only [System.continued, at'.index, at'.info]
        · simp only [System.continued, at'.job]
          rfl
      · rw [forked] at ends
        obtain ⟨forks', forked', ends⟩ := ends.dropped
        obtain ⟨next, reached', ended⟩ := reached.launch at' external ends
        cases launched with
        | none =>
            dsimp only at ran
            split at ran
            · obtain ⟨_, _, killed, same⟩ := bind_eq_ok.mp ran
              cases same
              have calls : Sheds [] middle finish :=
                (Sheds.of_silent (kill_silent environment _ sigkill) middle).of_ok killed
              refine ⟨next, forks', reached', ended, ?_⟩
              rw [forks_of_childless calls.recorded, forked']
            · cases ran
              exact ⟨next, forks', reached', ended, forked'⟩
        | some launched => exact ih reached' ended forked' ran

end Interleaving

/-- What `execute_as_job` returns, the job it builds and the processes it forks are those of
one of the interleavings of the shell with its children. Unless it fails, the children of
that interleaving are in the process group of the job. -/
theorem executeAsJob_interleaved {environment : Environment} {command : Command}
    {result : Option InternalExitInfo} {job : Job} {start finish : Shell}
    (ran : executeAsJob environment command (setupJob command) start =
      .ok (result, job) finish) :
    ∃ system : System, system.Reachable environment.shellPgid command ∧
      system.phase = .returned result ∧ system.job = job ∧
      finish.forks = start.forks ++
        system.children.map (fun child => (child.pid, child.call)) ∧
      (result.isSome = true → ∀ child ∈ system.children, child.group = job.pgid) := by
  have started : (System.start command).At .calling command.commandCalls 0 none
      (setupJob command) [] := ⟨rfl, rfl, rfl, rfl, rfl, rfl⟩
  obtain ⟨system, forks, reached, ended, forked⟩ :=
    executeCalls_interleaved command.commandCalls .refl started (List.append_nil _).symm ran
  refine ⟨system, reached, ended.phase, ended.job, ?_, fun launched child member => ?_⟩
  · rw [forked, ← ended.forks]
    rfl
  · obtain ⟨info, rfl⟩ := Option.isSome_iff_exists.mp launched
    have progress := reached.invariant.progress
    rw [ended.phase] at progress
    rw [← ended.job]
    exact (progress child member).group

/-- The processes of `sleep | cat` are the children of an interleaving. -/
theorem pipeline_launch_interleaved :
    let command : Command :=
      { commandString := "sleep | cat".toList
        commandCalls := [newCommandCall ["cat".toList] "cat".toList,
          newCommandCall ["sleep".toList] "sleep".toList]
        background := false
        openPipes := [(3, 4)] }
    ∃ (system : System) (info : InternalExitInfo),
      system.Reachable Environment.exiting.shellPgid command ∧
      system.phase = .returned (some info) ∧
      system.children.map (·.call) = command.commandCalls ∧
      ∀ child ∈ system.children, child.group = system.job.pgid := by
  intro command
  obtain ⟨⟨info, job⟩, finish, ran, checked⟩ := exists_of_returns
    (show returns (fun result (finish : Shell) => decide (result.1.isSome = true ∧
        finish.forks.map (·.2) = command.commandCalls))
      (executeAsJob .exiting command (setupJob command) (initInternals "/".toList)) = true by
        decide +kernel)
  obtain ⟨present, calls⟩ := of_decide_eq_true checked
  obtain ⟨info, rfl⟩ := Option.isSome_iff_exists.mp present
  obtain ⟨system, reached, phase, same, forked, groups⟩ := executeAsJob_interleaved ran
  refine ⟨system, info, reached, phase, ?_, same ▸ groups rfl⟩
  rw [← calls, forked]
  simp [initInternals, Shell.forks, Function.comp_def]

end Jsh
