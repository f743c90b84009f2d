import Jsh.JobLists
import Jsh.KillArguments
import Jsh.Runs
import Jsh.WorkingDirectory

/-!
# Usage of the built-ins

The return values of the built-ins, and what they leave unchanged when their arguments
are not those of their documentation.
-/

set_option autoImplicit false

namespace Jsh

open Library

/-! ## The documentation -/

/-- `%job` -/
def NamesId (identifier : CString) (id : Nat) : Prop :=
  ∃ text, identifier = '%' :: text ∧ WrittenInteger text id

/-- The usage of the built-ins. -/
inductive Usage : List CString → Prop where
  | cd : Usage ["cd".toList]
  | cdTo (ref : CString) : Usage ["cd".toList, ref]
  | pwd : Usage ["pwd".toList]
  | lastExitCode : Usage ["?".toList]
  | exit : Usage ["exit".toList]
  | exitWith {text : CString} {value : Int} : WrittenInteger text value → 0 ≤ value →
      value ≤ 255 → Usage ["exit".toList, text]
  | jobs : Usage ["jobs".toList]
  | jobsTree : Usage ["jobs".toList, "-t".toList]
  | jobsOf {job : CString} {id : Nat} : NamesId job id → Usage ["jobs".toList, job]
  | jobsTreeOf {job : CString} {id : Nat} : NamesId job id →
      Usage ["jobs".toList, "-t".toList, job]
  | jobsOfTree {job : CString} {id : Nat} : NamesId job id →
      Usage ["jobs".toList, job, "-t".toList]
  | fg {job : CString} {id : Nat} : NamesId job id → Usage ["fg".toList, job]
  | bg {job : CString} {id : Nat} : NamesId job id → Usage ["bg".toList, job]
  | killJob {job : CString} {id : Nat} : NamesId job id → Usage ["kill".toList, job]
  | killPid {pid : CString} : startsWith pid ['-'] = false → IntWritten pid →
      Usage ["kill".toList, pid]
  | killJobWith {sig job : CString} {id : Nat} : IntWritten sig → NamesId job id →
      Usage ["kill".toList, '-' :: sig, job]
  | killPidWith {sig pid : CString} : IntWritten sig → IntWritten pid →
      Usage ["kill".toList, '-' :: sig, pid]

/-- After `count` system calls the job is brought to the foreground, continued and waited
for, and the shell takes the terminal back. -/
structure Foregrounds (environment : Environment) (count : Nat) (job : Job) : Prop where
  given : environment.tcsetpgrp count job.pgid = true
  continued : environment.kill (count + 1) (-job.pgid) sigcont = none
  back : ∃ subjobs pids, Waited environment (count + 2) job.subjobs true subjobs pids ∧
    environment.tcsetpgrp
      (count + 2 + pids.length + if isJobFinished { job with subjobs } then 1 else 0)
      environment.shellPgid = true

/-- The action of a built-in succeeds. -/
inductive Succeeds (environment : Environment) (call : CommandCall) (start : Shell)
    (reports : List (Job × Job)) : Prop where
  | cd {path directory : CString} {count : Nat} : call.name = "cd".toList →
      cdTarget environment start call = some (path, count) →
      ReachesChdir environment count path →
      environment.chdir (count + 2) start.cwd path = .ok directory →
      Succeeds environment call start reports
  | pwd : call.name = "pwd".toList → environment.getcwdError start.control.calls = none →
      Succeeds environment call start reports
  | lastExitCode : call.name = "?".toList → Succeeds environment call start reports
  | jobs : call.name = "jobs".toList →
      (∀ argument ∈ call.argv, ∀ id, NamesId argument id →
        ∃ report ∈ reports, report.1.id = id ∧ isJobFinished report.2 = false) →
      Succeeds environment call start reports
  | fg {index : Nat} {job : Job} : call.name = "fg".toList →
      NamesJob start.control.table (call.argv.getD 1 []) index job →
      Foregrounds environment start.control.calls job → Succeeds environment call start reports
  | bg {index : Nat} {job : Job} : call.name = "bg".toList →
      NamesJob start.control.table (call.argv.getD 1 []) index job →
      environment.kill start.control.calls (-job.pgid) sigcont = none →
      Succeeds environment call start reports
  | kill {target signal : Int} : call.name = "kill".toList → SignalWritten call signal →
      TargetWritten start.control.table call target →
      environment.kill start.control.calls target signal = none →
      Succeeds environment call start reports

/-- The state of job control after the update that `jobs` and `exit` start with, or that
before it. -/
inductive RoutineUpdate (environment : Environment) (call : CommandCall) (start : Control) :
    Control → Prop where
  | none : RoutineUpdate environment call start start
  | update {fd : Int} {updated : Control} :
      call.name = "jobs".toList ∨ call.name = "exit".toList →
      fdUpdateJobs environment fd start = .ok () updated →
      RoutineUpdate environment call start updated

/-- No signal has been sent, and nothing has been changed but by the update. -/
structure Harmless (environment : Environment) (call : CommandCall) (start finish : Shell) :
    Prop where
  signals : Probes start.control finish.control
  updated : ∃ updated, RoutineUpdate environment call start.control updated ∧
    Sends [] updated finish.control
  cwd : finish.cwd = start.cwd
  lwd : finish.lwd = start.lwd
  shouldExit : finish.shouldExit = start.shouldExit

/-- What the documentation says about a built-in that has returned. -/
structure Contract (environment : Environment) (call : CommandCall) (start : Shell)
    (reports : List (Job × Job)) (value : Int) (finish : Shell) : Prop where
  returned : call.name ≠ "exit".toList → (value = 0 ∨ value = 1) ∧
    (value = 0 ↔ Usage call.argv ∧ Succeeds environment call start reports)
  harmless : ¬ Usage call.argv → Harmless environment call start finish

/-- A built-in returns and keeps its contract. -/
def Keeps (environment : Environment) (call : CommandCall) (start : Shell)
    (reports : List (Job × Job)) (action : ShellAction Int) : Prop :=
  ∃ value finish, action start = .ok value finish ∧
    Contract environment call start reports value finish

/-- The call of a built-in: its name is the first argument, and `argc` counts all of
them. -/
structure BuiltinCall (call : CommandCall) (name : CString) (arguments : List CString) :
    Prop where
  called : call.name = name
  argv : call.argv = name :: arguments
  argc : call.argc = arguments.length + 1

/-! ## Inversion -/

section Inversion

variable {arguments : List CString}

theorem usage_cd_iff : Usage ("cd".toList :: arguments) ↔ arguments.length ≤ 1 := by
  constructor
  · intro usage
    generalize same : "cd".toList :: arguments = argv at usage
    cases usage <;> simp_all
  · intro short
    match arguments, short with
    | [], _ => exact .cd
    | [ref], _ => exact .cdTo ref

theorem usage_pwd_iff : Usage ("pwd".toList :: arguments) ↔ arguments = [] := by
  constructor
  · intro usage
    generalize same : "pwd".toList :: arguments = argv at usage
    cases usage <;> simp_all
  · rintro rfl
    exact .pwd

theorem usage_lastExitCode_iff : Usage ("?".toList :: arguments) ↔ arguments = [] := by
  constructor
  · intro usage
    generalize same : "?".toList :: arguments = argv at usage
    cases usage <;> simp_all
  · rintro rfl
    exact .lastExitCode

theorem usage_exit_iff : Usage ("exit".toList :: arguments) ↔
    arguments = [] ∨ ∃ text value, arguments = [text] ∧ WrittenInteger text value ∧
      0 ≤ value ∧ value ≤ 255 := by
  constructor
  · intro usage
    generalize same : "exit".toList :: arguments = argv at usage
    cases usage with
    | exit => simp_all
    | exitWith written low high =>
        obtain ⟨_, rfl⟩ := List.cons.inj same
        exact .inr ⟨_, _, rfl, written, low, high⟩
    | _ => simp_all
  · rintro (rfl | ⟨text, value, rfl, written, low, high⟩)
    · exact .exit
    · exact .exitWith written low high

theorem usage_job_iff {name : CString} (own : name = "fg".toList ∨ name = "bg".toList) :
    Usage (name :: arguments) ↔ ∃ job id, arguments = [job] ∧ NamesId job id := by
  constructor
  · intro usage
    generalize same : name :: arguments = argv at usage
    cases usage with
    | fg names | bg names =>
        obtain ⟨_, rfl⟩ := List.cons.inj same
        exact ⟨_, _, rfl, names⟩
    | _ => cases own <;> simp_all
  · rintro ⟨job, id, rfl, names⟩
    cases own with
    | inl fg => exact fg ▸ .fg names
    | inr bg => exact bg ▸ .bg names

theorem usage_jobs_iff : Usage ("jobs".toList :: arguments) ↔
    arguments = [] ∨ arguments = ["-t".toList] ∨ ∃ job id, NamesId job id ∧
      (arguments = [job] ∨ arguments = ["-t".toList, job] ∨ arguments = [job, "-t".toList]) := by
  constructor
  · intro usage
    generalize same : "jobs".toList :: arguments = argv at usage
    cases usage with
    | jobs | jobsTree => simp_all
    | jobsOf names | jobsTreeOf names | jobsOfTree names =>
        obtain ⟨_, rfl⟩ := List.cons.inj same
        exact .inr (.inr ⟨_, _, names, by simp⟩)
    | _ => simp_all
  · rintro (rfl | rfl | ⟨job, id, names, rfl | rfl | rfl⟩)
    · exact .jobs
    · exact .jobsTree
    · exact .jobsOf names
    · exact .jobsTreeOf names
    · exact .jobsOfTree names

/-- `%job` or `pid` -/
def IsTarget (identifier : CString) : Prop :=
  (∃ id, NamesId identifier id) ∨ IntWritten identifier

theorem usage_kill_iff : Usage ("kill".toList :: arguments) ↔
    (∃ target, arguments = [target] ∧ startsWith target ['-'] = false ∧ IsTarget target) ∨
      ∃ sig target, arguments = ['-' :: sig, target] ∧ IntWritten sig ∧ IsTarget target := by
  constructor
  · intro usage
    generalize same : "kill".toList :: arguments = argv at usage
    cases usage with
    | killJob names =>
        obtain ⟨_, rfl⟩ := List.cons.inj same
        obtain ⟨text, rfl, _⟩ := id names
        exact .inl ⟨_, rfl, rfl, .inl ⟨_, names⟩⟩
    | killPid bare written =>
        obtain ⟨_, rfl⟩ := List.cons.inj same
        exact .inl ⟨_, rfl, bare, .inr written⟩
    | killJobWith sig names =>
        obtain ⟨_, rfl⟩ := List.cons.inj same
        exact .inr ⟨_, _, rfl, sig, .inl ⟨_, names⟩⟩
    | killPidWith sig written =>
        obtain ⟨_, rfl⟩ := List.cons.inj same
        exact .inr ⟨_, _, rfl, sig, .inr written⟩
    | _ => simp_all
  · rintro (⟨target, rfl, bare, ⟨id, names⟩ | written⟩ |
      ⟨sig, target, rfl, number, ⟨id, names⟩ | written⟩)
    · exact .killJob names
    · exact .killPid bare written
    · exact .killJobWith number names
    · exact .killPidWith number written

end Inversion

/-! ## `cd`, `pwd` and `?` -/

section Calls

variable {environment : Environment} {call : CommandCall} {start : Shell}
  {reports : List (Job × Job)} {arguments : List CString} {action : ShellAction Int}

theorem Sends.probes {before after : Control} (sends : Sends [] before after) :
    Probes before after :=
  .of_same (by rw [sends.trace, List.append_nil])

/-- Messages are harmless. -/
theorem Harmless.of_sends {control : Control} (sends : Sends [] start.control control) :
    Harmless environment call start { start with control } :=
  ⟨sends.probes, ⟨start.control, .none, sends⟩, rfl, rfl, rfl⟩

/-- A built-in that returns 1 without having done anything. -/
theorem Keeps.of_refusal {finish : Shell} (ran : action start = .ok 1 finish)
    (harmless : ¬ Usage call.argv → Harmless environment call start finish)
    (fails : Usage call.argv → ¬ Succeeds environment call start reports) :
    Keeps environment call start reports action := by
  refine ⟨1, finish, ran, fun _ => ⟨.inr rfl, ?_⟩, harmless⟩
  exact iff_of_false (by decide) fun both => fails both.1 both.2

/-- A built-in with documented arguments whose value says whether it has succeeded. -/
theorem Keeps.of_usage {succeeded : Bool} (usage : Usage call.argv)
    (ran : ∃ finish, action start = .ok (exitCodeOf succeeded) finish)
    (tells : succeeded = true ↔ Succeeds environment call start reports) :
    Keeps environment call start reports action := by
  obtain ⟨finish, ran⟩ := ran
  refine ⟨_, finish, ran, fun _ => ?_, fun unused => absurd usage unused⟩
  rw [and_iff_right usage, ← tells]
  cases succeeded with
  | true => exact ⟨.inl rfl, iff_of_true rfl rfl⟩
  | false => exact ⟨.inr rfl, iff_of_false (by decide) Bool.false_ne_true⟩

theorem Keeps.of_success (usage : Usage call.argv) (ran : ∃ finish, action start = .ok 0 finish)
    (succeeds : Succeeds environment call start reports) :
    Keeps environment call start reports action := by
  have ran : ∃ finish, action start = .ok (exitCodeOf true) finish := ran
  exact .of_usage usage ran (iff_of_true rfl succeeds)

/-- Success of `cd`. -/
theorem succeeds_cd_iff (called : call.name = "cd".toList) :
    Succeeds environment call start reports ↔
      ∃ path directory count, cdTarget environment start call = some (path, count) ∧
        ReachesChdir environment count path ∧
        environment.chdir (count + 2) start.cwd path = .ok directory := by
  constructor
  · intro succeeds
    cases succeeds with
    | cd _ target reaches changed => exact ⟨_, _, _, target, reaches, changed⟩
    | pwd other _ | lastExitCode other | jobs other _ | fg other _ _ | bg other _ _
    | kill other _ _ _ => simp [called] at other
  · rintro ⟨path, directory, count, target, reaches, changed⟩
    exact .cd called target reaches changed

theorem cd_keeps (built : BuiltinCall call "cd".toList arguments) :
    Keeps environment call start reports (cd environment call) := by
  have usage : Usage call.argv ↔ arguments.length ≤ 1 := built.argv ▸ usage_cd_iff
  have argc := built.argc
  by_cases short : arguments.length ≤ 1
  · cases cd_eq environment call start with
    | inl passes =>
        obtain ⟨path, middle, cwd, lwd, target, same⟩ := passes
        obtain ⟨value, finish, ran, enters⟩ :=
          setNewCwd_enters environment path call.stderr middle
        refine Keeps.of_usage (usage.mpr short) ⟨_, same.trans (bind_of_ok ran)⟩ ?_
        rw [succeeds_cd_iff built.called]
        constructor
        · rintro rfl
          cases enters with
          | entered directory reaches changed _ _ =>
              exact ⟨path, directory, _, target, reaches, cwd ▸ changed⟩
        · rintro ⟨path', directory, count, target', reaches, changed⟩
          cases target.symm.trans target'
          cases enters with
          | entered _ _ _ _ _ => rfl
          | refused text _ failed _ _ =>
              rw [cwd, changed] at failed
              cases failed
          | kept short _ _ => exact absurd reaches short
    | inr aimless =>
        obtain ⟨none, finish, ran, _, _⟩ := aimless
        refine .of_refusal ran (fun unused => absurd (usage.mpr short) unused) fun _ => ?_
        rw [succeeds_cd_iff built.called]
        rintro ⟨path, directory, count, target, _⟩
        rw [none] at target
        cases target
  · have printed := (dprintf_prints call.stderr "cd: incorrect usage of cd command.\n".toList
      start.control).2.append (dprintf_prints call.stderr
        "cd: correct usage: cd [directory|-]\n".toList (start.control.printed _ _)).2
    refine .of_refusal ?_ (fun _ => .of_sends printed.sends) fun used =>
      absurd (usage.mp used) short
    rw [cd, if_neg (by omega), if_neg (by omega), if_neg (by omega)]
    rfl

theorem pwd_keeps_iff (built : BuiltinCall call "pwd".toList arguments) :
    Keeps environment call start reports (pwd environment call) ↔
      (arguments = [] → environment.getcwdError start.control.calls = none) := by
  have usage : Usage call.argv ↔ arguments = [] := built.argv ▸ usage_pwd_iff
  have argc := built.argc
  by_cases alone : arguments = []
  · cases current : environment.getcwdError start.control.calls with
    | some text =>
        refine iff_of_false ?_ fun works => by cases works alone
        rintro ⟨value, finish, ran, _⟩
        rw [pwd, if_neg (by simp [argc, alone]), bind_of_ok (getCurrentWd_failed current)] at ran
        cases ran
    | none =>
        refine iff_of_true ?_ fun _ => rfl
        refine .of_success (usage.mpr alone) ?_ (.pwd built.called current)
        rw [pwd, if_neg (by simp [argc, alone]), bind_of_ok (getCurrentWd_run current)]
        exact ⟨_, rfl⟩
  · refine iff_of_true ?_ fun none => absurd none alone
    have printed := (dprintf_prints call.stderr "pwd: too many arguments\n".toList start.control).2
    refine .of_refusal ?_ (fun _ => .of_sends printed.sends) fun used =>
      absurd (usage.mp used) alone
    have more := List.length_pos_iff.mpr alone
    rw [pwd, if_pos (by omega)]
    rfl

theorem lastExitCodeCommand_keeps (built : BuiltinCall call "?".toList arguments) :
    Keeps environment call start reports (lastExitCodeCommand call) := by
  have usage : Usage call.argv ↔ arguments = [] := built.argv ▸ usage_lastExitCode_iff
  have argc := built.argc
  by_cases alone : arguments = []
  · refine .of_success (usage.mpr alone) ?_ (.lastExitCode built.called)
    rw [lastExitCodeCommand, if_neg (by simp [argc, alone])]
    exact ⟨_, rfl⟩
  · have printed := (dprintf_prints call.stderr "?: too many arguments\n".toList start.control).2
    refine .of_refusal ?_ (fun _ => .of_sends printed.sends) fun used =>
      absurd (usage.mp used) alone
    have more := List.length_pos_iff.mpr alone
    rw [lastExitCodeCommand, if_pos (by omega)]
    rfl

/-! ## `fg` and `bg` -/

theorem NamesJob.namesId {table : JobTable} {identifier : CString} {index : Nat} {job : Job}
    (names : NamesJob table identifier index job) : NamesId identifier (index + 1) := by
  cases names with
  | mk written _ _ _ _ => exact ⟨_, rfl, written⟩

/-- A built-in that hands the job it is given to another function. -/
theorem jobCommand_keeps {name : CString} {act : Nat → JobAction Bool} {works : Job → Prop}
    (own : name = "fg".toList ∨ name = "bg".toList) (built : BuiltinCall call name arguments)
    (needs : Succeeds environment call start reports ↔
      ∃ index job, NamesJob start.control.table (call.argv.getD 1 []) index job ∧ works job)
    (tells : ∀ index job, start.control.table.slot index = some job →
      ∃ succeeded finish, act index start.control = .ok succeeded finish ∧
        (succeeded = true ↔ works job)) :
    Keeps environment call start reports (liftJob (jobCommand name act call)) := by
  have usage : Usage call.argv ↔ ∃ job id, arguments = [job] ∧ NamesId job id :=
    built.argv ▸ usage_job_iff own
  have argc := built.argc
  have refused : ¬ Usage call.argv → (∃ text, jobCommand name act call start.control =
      .ok 1 (start.control.printed call.stderr text)) →
      Keeps environment call start reports (liftJob (jobCommand name act call)) := by
    rintro unused ⟨text, ran⟩
    exact .of_refusal (liftJob_eq_ok.mpr ⟨_, ran, rfl⟩)
      (fun _ => .of_sends (dprintf_prints call.stderr text start.control).2.sends)
      fun used => absurd used unused
  rcases arguments with _ | ⟨argument, _ | ⟨second, others⟩⟩
  case nil =>
      have unused : ¬ Usage call.argv := by
        rw [usage]
        rintro ⟨_, _, impossible, _⟩
        cases impossible
      refine refused unused ?_
      rw [jobCommand, if_pos (show call.argc = 1 from argc)]
      exact ⟨_, rfl⟩
  case cons.cons =>
      have unused : ¬ Usage call.argv := by
        rw [usage]
        rintro ⟨_, _, impossible, _⟩
        cases impossible
      rw [List.length_cons, List.length_cons] at argc
      refine refused unused ?_
      rw [jobCommand, if_neg (by omega), if_pos (by omega)]
      exact ⟨_, rfl⟩
  case cons.nil =>
      have two : call.argc = 2 := argc
      have enough : ¬ call.argc = 1 := by omega
      have few : ¬ call.argc > 2 := by omega
      cases getJob_cases (call.argv.getD 1 []) call.stderr start.control with
      | inl found =>
          obtain ⟨index, job, names, reads⟩ := found
          obtain ⟨succeeded, finish, ran, tells⟩ := tells index job names.slot
          have only : works job ↔ Succeeds environment call start reports := by
            rw [needs]
            constructor
            · exact fun worked => ⟨index, job, names, worked⟩
            · rintro ⟨_, _, names', worked⟩
              obtain ⟨_, rfl⟩ := names.unique names'
              exact worked
          have given : call.argv.getD 1 [] = argument := by rw [built.argv]; rfl
          refine Keeps.of_usage (usage.mpr ⟨argument, _, rfl, given ▸ names.namesId⟩)
            ⟨_, liftJob_eq_ok.mpr ⟨finish, ?_, rfl⟩⟩ (tells.trans only)
          rw [jobCommand, if_neg enough, if_neg few, bind_of_ok reads]
          exact bind_of_ok ran
      | inr missing =>
          obtain ⟨none, message, _, reads⟩ := missing
          refine .of_refusal (liftJob_eq_ok.mpr ⟨_, ?_, rfl⟩)
            (fun _ => .of_sends (dprintf_prints call.stderr message start.control).2.sends)
            fun _ succeeds => ?_
          · rw [jobCommand, if_neg enough, if_neg few, bind_of_ok reads]
            rfl
          · obtain ⟨index, job, names, _⟩ := needs.mp succeeds
            exact none index job names

theorem putJobInForeground_returns {index : Nat} {control : Control} {job : Job}
    (consistent : control.table.Consistent) (found : control.table.slot index = some job) :
    ∃ succeeded finish, putJobInForeground environment index control = .ok succeeded finish ∧
      (succeeded = true ↔ Foregrounds environment control.calls job) := by
  obtain ⟨all, subjobs, pids, waited, ran⟩ := putJobInForeground_eq environment consistent found
  cases given : environment.tcsetpgrp control.calls job.pgid with
  | false =>
      rw [given, if_pos rfl] at ran
      refine ⟨false, _, ran, iff_of_false Bool.false_ne_true fun fore => ?_⟩
      rw [fore.given] at given
      cases given
  | true =>
      rw [given, if_neg (by simp)] at ran
      dsimp only at ran
      cases sent : environment.kill (control.calls + 1) (-job.pgid) sigcont with
      | some error =>
          rw [sent] at ran
          refine ⟨false, _, ran, iff_of_false Bool.false_ne_true fun fore => ?_⟩
          rw [fore.continued] at sent
          cases sent
      | none =>
          rw [sent] at ran
          cases all with
          | false =>
              refine ⟨false, _, ran, iff_of_false Bool.false_ne_true fun fore => ?_⟩
              obtain ⟨_, _, others, _⟩ := fore.back
              cases (waited.unique others).1
          | true =>
              rw [if_neg (by simp), if_pos rfl] at ran
              refine ⟨_, _, ran, ?_⟩
              have counted : ∀ job' : Job,
                  (((((control.gave job.pgid).signalled job sigcont).waited pids).assessed
                    job').rewritten index job').calls =
                  control.calls + 2 + pids.length + if isJobFinished job' then 1 else 0 :=
                fun job' => Control.assessed_calls _ job'
              rw [Control.recovered_calls, counted]
              constructor
              · exact fun back => ⟨given, sent, subjobs, pids, waited, back⟩
              · intro fore
                obtain ⟨_, _, others, back⟩ := fore.back
                obtain ⟨_, rfl, rfl⟩ := waited.unique others
                exact back

theorem fgCommand_keeps (consistent : start.control.table.Consistent)
    (built : BuiltinCall call "fg".toList arguments) :
    Keeps environment call start reports (liftJob (fgCommand environment call)) := by
  have own : Succeeds environment call start reports ↔
      ∃ index job, NamesJob start.control.table (call.argv.getD 1 []) index job ∧
        Foregrounds environment start.control.calls job := by
    constructor
    · intro succeeds
      cases succeeds with
      | fg _ names fore => exact ⟨_, _, names, fore⟩
      | cd other _ _ _ | pwd other _ | lastExitCode other | jobs other _ | bg other _ _
      | kill other _ _ _ => simp [built.called] at other
    · rintro ⟨index, job, names, fore⟩
      exact .fg built.called names fore
  exact jobCommand_keeps (.inl rfl) built own fun index job found =>
    putJobInForeground_returns consistent found

theorem bgCommand_keeps (built : BuiltinCall call "bg".toList arguments) :
    Keeps environment call start reports (liftJob (bgCommand environment call)) := by
  have own : Succeeds environment call start reports ↔
      ∃ index job, NamesJob start.control.table (call.argv.getD 1 []) index job ∧
        environment.kill start.control.calls (-job.pgid) sigcont = none := by
    constructor
    · intro succeeds
      cases succeeds with
      | bg _ names continued => exact ⟨_, _, names, continued⟩
      | cd other _ _ _ | pwd other _ | lastExitCode other | jobs other _ | fg other _ _
      | kill other _ _ _ => simp [built.called] at other
    · rintro ⟨index, job, names, continued⟩
      exact .bg built.called names continued
  refine jobCommand_keeps (.inr rfl) built own fun index job found => ?_
  obtain ⟨finish, signalled, _⟩ := signalJob_run environment job sigcont start.control
  refine ⟨(environment.kill start.control.calls (-job.pgid) sigcont).isNone, finish, ?_,
    Option.isNone_iff_eq_none⟩
  rw [continueJobInBackground, bind_of_ok (get_apply start.control)]
  simp only [found]
  exact bind_of_ok signalled

/-! ## `kill` -/

/-- What documented arguments of `kill` say. -/
theorem kill_arguments (built : BuiltinCall call "kill".toList arguments)
    (usage : Usage call.argv) :
    (2 ≤ call.argc ∧ call.argc ≤ 3) ∧ (∀ text, givenSignal call = some text → IntWritten text) ∧
      ∃ identifier, killIdentifier call = some identifier ∧ IsTarget identifier := by
  have argc := built.argc
  have argv := built.argv
  rw [argv, usage_kill_iff] at usage
  unfold givenSignal killIdentifier
  rw [argv]
  cases usage with
  | inl bare =>
      obtain ⟨target, rfl, bare, own⟩ := bare
      simp only [List.length_singleton] at argc
      simp [bare, own, argc]
  | inr signal =>
      obtain ⟨sig, target, rfl, number, own⟩ := signal
      simp only [List.length_cons, List.length_nil] at argc
      simp [startsWith, number, own, argc]

theorem reads_of_usage (built : BuiltinCall call "kill".toList arguments)
    (usage : Usage call.argv) {table : JobTable} {target : Int}
    (written : TargetWritten table call target) : KillReads table call := by
  obtain ⟨few, signal, identifier, given, own⟩ := kill_arguments built usage
  refine ⟨few, ?_, ?_⟩
  · unfold KillSignal
    cases sig : givenSignal call with
    | none => exact ⟨_, rfl⟩
    | some text =>
        obtain ⟨value, written, fits⟩ := signal text sig
        exact ⟨_, value, .of_fits written fits, rfl⟩
  · intro identifier' given'
    cases given.symm.trans given'
    obtain ⟨identifier', given', target⟩ := written
    cases given.symm.trans given'
    cases target with
    | inl job =>
        obtain ⟨index, job, names, _⟩ := job
        exact ⟨_, .job names⟩
    | inr pid =>
        cases own with
        | inl names =>
            obtain ⟨_, text, rfl, _⟩ := names
            exact absurd pid (not_writtenInteger_percent _ _)
        | inr number =>
            obtain ⟨value, written, fits⟩ := number
            exact ⟨_, .pid pid.unmarked (.of_fits written fits)⟩

theorem killCommand_keeps_iff (built : BuiltinCall call "kill".toList arguments) :
    Keeps environment call start reports (liftJob (killCommand environment call)) ↔
      (KillReads start.control.table call → Usage call.argv) := by
  obtain ⟨value, control, ran, ends⟩ := killCommand_ends environment call start.control
  have lifted : liftJob (killCommand environment call) start =
      .ok value { start with control } := liftJob_eq_ok.mpr ⟨control, ran, rfl⟩
  have only : ∀ {value' finish}, liftJob (killCommand environment call) start =
      .ok value' finish → value' = value ∧ finish = { start with control } := by
    intro value' finish other
    cases lifted.symm.trans other
    exact ⟨rfl, rfl⟩
  cases ends with
  | refused unread sends =>
      refine iff_of_true ?_ fun reads => absurd reads unread
      refine .of_refusal lifted (fun _ => .of_sends sends) fun usage succeeds => unread ?_
      cases succeeds with
      | kill _ _ written _ => exact reads_of_usage built usage written
      | cd other _ _ _ | pwd other _ | lastExitCode other | jobs other _ | fg other _ _
      | bg other _ _ => simp [built.called] at other
  | missing reads none _ =>
      have unused : ¬ Usage call.argv := by
        intro usage
        obtain ⟨_, _, identifier, given, _⟩ := kill_arguments built usage
        rw [none] at given
        cases given
      refine iff_of_false ?_ fun documented => unused (documented reads)
      rintro ⟨value', finish, other, contract⟩
      obtain ⟨rfl, rfl⟩ := only other
      have named : call.name ≠ "exit".toList := by simp [built.called]
      exact unused ((contract.returned named).2.mp rfl).1
  | sent reads given own addressed sends =>
      by_cases usage : Usage call.argv
      · refine iff_of_true ?_ fun _ => usage
        obtain ⟨_, sig, identifier, given', target⟩ := kill_arguments built usage
        cases given.symm.trans given'
        have signal := signalWritten_of_fits own sig
        have target := targetWritten_of_fits given addressed fun unmarked => by
          cases target with
          | inl names =>
              obtain ⟨_, text, rfl, _⟩ := names
              cases unmarked
          | inr number => exact number
        refine .of_usage usage ⟨_, lifted⟩ (Option.isNone_iff_eq_none.trans ?_)
        constructor
        · exact fun works => .kill built.called signal target works
        · intro succeeds
          cases succeeds with
          | kill _ signal' target' works =>
              rw [signal.unique signal', target.unique target']
              exact works
          | cd other _ _ _ | pwd other _ | lastExitCode other | jobs other _ | fg other _ _
          | bg other _ _ => simp [built.called] at other
      · refine iff_of_false ?_ fun documented => usage (documented reads)
        rintro ⟨value', finish, other, contract⟩
        obtain ⟨_, rfl⟩ := only other
        obtain ⟨updated, routine, none⟩ := (contract.harmless usage).updated
        cases routine with
        | none =>
            have same := none.trace.symm.trans sends.trace
            simp at same
        | update named _ => simp [built.called] at named

/-! ## `exit` -/

/-- Jobs are running after the update if some have not been reported as finished. -/
theorem areJobsRunning_iff {table : JobTable}
    (left : table.jobs = reports.filterMap (·.2.remaining)) :
    areJobsRunning table = true ↔ ∃ report ∈ reports, isJobFinished report.2 = false := by
  rw [areJobsRunning, left, List.any_eq_true]
  constructor
  · rintro ⟨job, member, _⟩
    obtain ⟨report, inside, _, alive⟩ := mem_remaining.mp member
    exact ⟨report, inside, alive⟩
  · rintro ⟨report, inside, alive⟩
    refine ⟨report.2, mem_remaining.mpr ⟨report, inside, rfl, alive⟩, ?_⟩
    rw [isJobAlive_eq, alive]
    rfl

theorem Harmless.of_update {fd : Int} {updated : Control} {finish : Shell}
    (named : call.name = "jobs".toList ∨ call.name = "exit".toList)
    (update : fdUpdateJobs environment fd start.control = .ok () updated)
    (probes : Probes start.control updated) (sends : Sends [] updated finish.control)
    (cwd : finish.cwd = start.cwd) (lwd : finish.lwd = start.lwd)
    (shouldExit : finish.shouldExit = start.shouldExit) :
    Harmless environment call start finish :=
  ⟨probes.trans sends.probes, ⟨updated, .update named update, sends⟩, cwd, lwd, shouldExit⟩

theorem Keeps.of_exit (called : call.name = "exit".toList)
    (ran : ∃ value finish, action start = .ok value finish ∧
      (¬ Usage call.argv → Harmless environment call start finish)) :
    Keeps environment call start reports action := by
  obtain ⟨value, finish, ran, harmless⟩ := ran
  exact ⟨value, finish, ran, fun other => absurd called other, harmless⟩

section Exit

variable {updated : Control} (built : BuiltinCall call "exit".toList arguments)
  (update : fdUpdateJobs environment stderrFileno start.control = .ok () updated)
  (probes : Probes start.control updated)

include update

theorem updates_lifted :
    liftJob (updateJobs environment) start = .ok () { start with control := updated } :=
  liftJob_eq_ok.mpr ⟨updated, update, rfl⟩

include built probes

/-- `exit` with some job running or stopped. -/
theorem exitCommand_refused (few : ¬ call.argc > 2)
    (running : areJobsRunning updated.table = true) :
    Keeps environment call start reports (exitCommand environment call) := by
  have printed := (dprintf_prints call.stderr "jsh: you have running jobs.\n".toList updated).2
  refine .of_exit built.called ⟨1, { start with control := updated.printed _ _ }, ?_, fun _ =>
    .of_update (.inr built.called) update probes printed.sends rfl rfl rfl⟩
  rw [exitCommand, if_neg few, bind_of_ok (updates_lifted update),
    bind_of_ok (get_apply _), if_pos running]
  rfl

/-- `exit` with an argument, when no job is running or stopped. -/
theorem exitCommand_argument_iff {text : CString} (given : arguments = [text])
    (idle : areJobsRunning updated.table = false) :
    Keeps environment call start reports (exitCommand environment call) ↔
      (text = [] → start.shouldExit = true) := by
  have usage : Usage call.argv ↔ _ := built.argv ▸ usage_exit_iff
  have two : call.argc = 2 := by
    rw [built.argc, given]
    rfl
  have argument : call.argv.getD 1 [] = text := by
    rw [built.argv, given]
    rfl
  have harmless : ∀ {control : Control}, Sends [] updated control →
      Harmless environment call start { start with control } := fun sends =>
    .of_update (.inr built.called) update probes sends rfl rfl rfl
  cases parseIntmaxT_cases text call.stderr updated with
  | inr refused =>
      obtain ⟨none, message, _, ran⟩ := refused
      refine iff_of_true ?_ fun empty => absurd (empty ▸ .empty) (none 0)
      refine .of_exit built.called ⟨1, { start with control := updated.printed _ message }, ?_,
        fun _ => harmless (dprintf_prints call.stderr message updated).2.sends⟩
      rw [exitCommand, if_neg (by omega), bind_of_ok (updates_lifted update),
        bind_of_ok (get_apply _), if_neg (by simp [idle]), if_neg (by omega), if_pos two, argument,
        bind_of_ok (liftJob_eq_ok.mpr ⟨_, ran, rfl⟩)]
      rfl
  | inl parsed =>
      obtain ⟨value, read, ran⟩ := parsed
      have reads : liftJob (parseIntmaxT text call.stderr) { start with control := updated } =
          .ok (some value) { start with control := updated } :=
        liftJob_eq_ok.mpr ⟨updated, ran, rfl⟩
      by_cases outside : value < 0 ∨ value > 255
      · have printed := (dprintf_prints call.stderr ("exit: ".toList ++ text ++
          ": number between 0 and 255 (inclusive) required\n".toList) updated).2
        refine iff_of_true ?_ fun empty => ?_
        · refine .of_exit built.called ⟨1, { start with control := updated.printed _ _ }, ?_,
            fun _ => harmless printed.sends⟩
          rw [exitCommand, if_neg (by omega), bind_of_ok (updates_lifted update),
            bind_of_ok (get_apply _), if_neg (by simp [idle]), if_neg (by omega), if_pos two,
            argument, bind_of_ok reads]
          simp only [outside, if_true]
          rfl
        · subst empty
          cases read with
          | integer written _ _ => exact absurd rfl written.ne_nil
          | empty => exact absurd outside (by decide)
      · have left : exitCommand environment call start =
            .ok value (({ start with control := updated } : Shell).leaving call value) := by
          rw [exitCommand, if_neg (by omega), bind_of_ok (updates_lifted update),
            bind_of_ok (get_apply _), if_neg (by simp [idle]), if_neg (by omega), if_pos two,
            argument, bind_of_ok reads]
          simp only [outside, if_false]
          rfl
        cases read with
        | integer written _ _ =>
            have used := usage.mpr (.inr ⟨text, value, given, written, by omega, by omega⟩)
            refine iff_of_true ?_ fun empty => absurd empty written.ne_nil
            exact .of_exit built.called ⟨value, _, left, fun unused => absurd used unused⟩
        | empty =>
            constructor
            · rintro ⟨value', finish, ran', contract⟩ _
              cases left.symm.trans ran'
              have unused : ¬ Usage call.argv := by
                rw [usage, given]
                rintro (impossible | ⟨_, _, same, written, _⟩)
                · cases impossible
                · cases same
                  exact written.ne_nil rfl
              exact (contract.harmless unused).shouldExit.symm
            · intro leaving
              refine .of_exit built.called ⟨0, _, left, fun _ => ?_⟩
              have recorded : Sends [] updated
                  { updated with trace := updated.trace ++ [.leave call] } :=
                ⟨rfl, by simp [sentSignals, Event.sent]⟩
              exact .of_update (.inr built.called) update probes recorded rfl rfl (leaving rfl).symm

end Exit

theorem exitCommand_keeps_iff (built : BuiltinCall call "exit".toList arguments)
    {updated : Control}
    (update : fdUpdateJobs environment stderrFileno start.control = .ok () updated)
    (probes : Probes start.control updated)
    (left : updated.table.jobs = reports.filterMap (·.2.remaining)) :
    Keeps environment call start reports (exitCommand environment call) ↔
      (arguments = [[]] → start.shouldExit = true ∨
        ∃ report ∈ reports, isJobFinished report.2 = false) := by
  have argc := built.argc
  have running := areJobsRunning_iff left
  by_cases many : call.argc > 2
  · have printed := (dprintf_prints call.stderr "exit: too many arguments\n".toList
      start.control).2
    refine iff_of_true ?_ fun one => ?_
    · refine .of_exit built.called ⟨1, { start with control := start.control.printed _ _ }, ?_,
        fun _ => .of_sends printed.sends⟩
      rw [exitCommand, if_pos many]
      rfl
    · rw [argc, one] at many
      exact absurd many (by decide)
  · cases alive : areJobsRunning updated.table with
    | true =>
        exact iff_of_true (exitCommand_refused built update probes many alive) fun _ =>
          .inr (running.mp alive)
    | false =>
        have idle : ¬ ∃ report ∈ reports, isJobFinished report.2 = false := by
          rw [← running, alive]
          exact Bool.false_ne_true
        match arguments with
        | [] =>
            refine iff_of_true ?_ fun impossible => by cases impossible
            refine .of_exit built.called ⟨start.lastExitCode,
              ({ start with control := updated } : Shell).leaving call start.lastExitCode, ?_,
              fun unused => ?_⟩
            · rw [exitCommand, if_neg many, bind_of_ok (updates_lifted update),
                bind_of_ok (get_apply _), if_neg (by simp [alive]),
                if_pos (show call.argc = 1 from argc)]
              rfl
            · exact absurd (built.argv ▸ usage_exit_iff.mpr (.inl rfl)) unused
        | [text] =>
            rw [exitCommand_argument_iff built update probes rfl alive]
            simp [idle]
        | _ :: _ :: _ =>
            simp only [List.length_cons] at argc
            omega

/-! ## `jobs` -/

/-- Whether `jobs` takes an argument for `-t`, and the position of the one after it. -/
def jobsOptions (call : CommandCall) : Bool × Nat :=
  if call.argc > 1 ∧ call.argv.getD 1 [] = ['-', 't'] then (true, 2)
  else if call.argc = 3 ∧ call.argv.getD 2 [] = ['-', 't'] then (true, 1)
  else (false, 1)

/-- The argument that `jobs` takes for the name of a job. -/
def jobsIdentifier (call : CommandCall) : Option CString :=
  let argument := call.argv.getD (jobsOptions call).2 []
  if call.argc > (jobsOptions call).2 ∧ startsWith argument ['%'] then some argument else none

theorem jobsCommand_options (few : call.argc ≤ 3) :
    jobsCommand environment call = (fdUpdateJobs environment call.stdout >>= fun _ =>
      printSelectedJobs environment call (jobsOptions call).1 (jobsOptions call).2) := by
  unfold jobsCommand jobsOptions
  rw [if_neg (by omega)]
  split
  · rfl
  · split <;> rfl

/-- The job is the one that is named, if there is one. -/
def JobsShows (call : CommandCall) (id : Nat) : Prop :=
  ∀ identifier, jobsIdentifier call = some identifier → NamesId identifier id

/-- A job that is named is in the table. -/
def JobsFinds (call : CommandCall) (jobs : List Job) : Prop :=
  ∀ identifier, jobsIdentifier call = some identifier → ∃ job ∈ jobs, NamesId identifier job.id

theorem NamesId.unique {identifier : CString} {id id' : Nat} (names : NamesId identifier id)
    (names' : NamesId identifier id') : id = id' := by
  obtain ⟨text, rfl, written⟩ := names
  obtain ⟨_, same, written'⟩ := names'
  cases same
  exact Int.natCast_inj.mp (written.unique written')

section Table

variable {table : JobTable} {control : Control}

theorem NamesJob.of_namesId (consistent : table.Consistent) {identifier : CString} {job : Job}
    (member : job ∈ table.jobs) (names : NamesId identifier job.id) :
    ∃ index, NamesJob table identifier index job := by
  obtain ⟨text, rfl, written⟩ := names
  exact namesJob_of_mem consistent member written

theorem NamesJob.id_eq (consistent : table.Consistent) {identifier : CString} {index : Nat}
    {job : Job} (names : NamesJob table identifier index job) : NamesId identifier job.id := by
  rw [consistent.ids index job names.slot]
  exact names.namesId

/-- `jobs` names a job that does not exist. -/
theorem printSelectedJobs_missing (consistent : control.table.Consistent)
    (missing : ¬ JobsFinds call control.table.jobs) :
    ∃ message, printSelectedJobs environment call (jobsOptions call).1 (jobsOptions call).2
      control = .ok 1 (control.printed call.stderr message) := by
  simp only [JobsFinds, not_forall, not_exists, not_and] at missing
  obtain ⟨identifier, given, absent⟩ := missing
  unfold jobsIdentifier at given
  dsimp only at given
  split at given
  · next named =>
    cases given
    rw [printSelectedJobs, if_pos named]
    cases getJob_cases (call.argv.getD (jobsOptions call).2 []) call.stderr control with
    | inl found =>
        obtain ⟨index, job, names, _⟩ := found
        exact absurd (names.id_eq consistent) (absent job (JobTable.mem_jobs_of_slot names.slot))
    | inr refused =>
        obtain ⟨_, message, _, ran⟩ := refused
        exact ⟨message, bind_of_ok ran⟩
  · cases given

theorem job_eq_of_id (consistent : table.Consistent) {job job' : Job} (member : job ∈ table.jobs)
    (member' : job' ∈ table.jobs) (same : job.id = job'.id) : job = job' := by
  obtain ⟨index, slot⟩ := exists_slot_of_mem member
  obtain ⟨index', slot'⟩ := exists_slot_of_mem member'
  have own := consistent.ids index job slot
  have own' := consistent.ids index' job' slot'
  have index_eq : index = index' := by omega
  subst index_eq
  exact Option.some.inj (slot.symm.trans slot')

/-- `jobs -t` is about a job with an empty slot. -/
def JobsReads (call : CommandCall) (jobs : List Job) : Prop :=
  (jobsOptions call).1 = true ∧ ∃ job ∈ jobs, JobsShows call job.id ∧ none ∈ job.subjobs

theorem returns_zero_iff {print : JobAction Unit} {value : Int} :
    (∃ finish, (print >>= fun _ => return (0 : Int)) control = .ok value finish) ↔
      value = 0 ∧ ∃ finish, print control = .ok () finish := by
  constructor
  · rintro ⟨finish, ran⟩
    obtain ⟨_, _, printed, same⟩ := bind_eq_ok.mp ran
    cases same
    exact ⟨rfl, _, printed⟩
  · rintro ⟨rfl, finish, printed⟩
    exact ⟨finish, bind_of_ok printed⟩

theorem printJobTree_returns_iff {job : Job} {fd : Int} :
    (∃ finish, printJobTree environment job fd control = .ok () finish) ↔ none ∉ job.subjobs := by
  constructor
  · rintro ⟨finish, ran⟩ absent
    exact printJobTree_crashes absent _ _ ran
  · intro full
    obtain ⟨finish, ran, _⟩ := printJobTree_printed fd full control
    exact ⟨finish, ran⟩

theorem printJobs_returns_iff {jobs : List Job} {fd : Int} :
    (∃ finish, printJobs environment true fd jobs control = .ok () finish) ↔
      ∀ job ∈ jobs, none ∉ job.subjobs := by
  constructor
  · rintro ⟨finish, ran⟩ job member absent
    exact printJobs_crashes member absent _ _ ran
  · intro full
    obtain ⟨finish, ran, _⟩ := printJobs_printed full control
    exact ⟨finish, ran⟩

/-- `jobs` that finds the job it names returns 0 unless it reads an empty slot. -/
theorem printSelectedJobs_returns_iff (consistent : control.table.Consistent)
    (finds : JobsFinds call control.table.jobs) (value : Int) :
    (∃ finish, printSelectedJobs environment call (jobsOptions call).1 (jobsOptions call).2
      control = .ok value finish) ↔ value = 0 ∧ ¬ JobsReads call control.table.jobs := by
  rw [printSelectedJobs, JobsReads]
  generalize option : (jobsOptions call).1 = tree
  dsimp only
  by_cases named : call.argc > (jobsOptions call).2 ∧
      startsWith (call.argv.getD (jobsOptions call).2 []) ['%'] = true
  · have given : jobsIdentifier call = some (call.argv.getD (jobsOptions call).2 []) := if_pos named
    obtain ⟨job, member, names⟩ := finds _ given
    have shown : (∃ job ∈ control.table.jobs, JobsShows call job.id ∧ none ∈ job.subjobs) ↔
        none ∈ job.subjobs := by
      constructor
      · rintro ⟨other, inside, shows, absent⟩
        rwa [job_eq_of_id consistent member inside (names.unique (shows _ given))]
      · refine fun absent => ⟨job, member, fun identifier same => ?_, absent⟩
        cases given.symm.trans same
        exact names
    obtain ⟨index, own⟩ := NamesJob.of_namesId consistent member names
    cases getJob_cases (call.argv.getD (jobsOptions call).2 []) call.stderr control with
    | inr refused => exact absurd own (refused.1 index job)
    | inl found =>
        obtain ⟨index', job', own', ran⟩ := found
        obtain ⟨rfl, rfl⟩ := own.unique own'
        rw [if_pos named, bind_of_ok ran, shown]
        dsimp only
        rw [bind_of_ok (get_apply control), own.slot]
        cases tree with
        | true =>
            simp only [if_true, true_and]
            rw [returns_zero_iff, printJobTree_returns_iff]
        | false =>
            simp only [Bool.false_eq_true, if_false, false_and, not_false_eq_true, and_true]
            rw [returns_zero_iff]
            exact and_iff_left ⟨_, printJob_eq job call.stdout control⟩
  · have shown : (∃ job ∈ control.table.jobs, JobsShows call job.id ∧ none ∈ job.subjobs) ↔
        ∃ job ∈ control.table.jobs, none ∈ job.subjobs := by
      have all : ∀ id, JobsShows call id := by
        intro id identifier given
        rw [jobsIdentifier, if_neg named] at given
        cases given
      constructor
      · rintro ⟨job, member, _, absent⟩
        exact ⟨job, member, absent⟩
      · rintro ⟨job, member, absent⟩
        exact ⟨job, member, all job.id, absent⟩
    rw [if_neg named, bind_of_ok (get_apply control), shown, returns_zero_iff]
    cases tree with
    | true =>
        rw [printJobs_returns_iff]
        simp only [true_and, not_exists, not_and]
    | false =>
        obtain ⟨finish, ran, _⟩ := printJobs_lines environment call.stdout control.table.jobs control
        simp only [Bool.false_eq_true, false_and, not_false_eq_true, and_true]
        exact and_iff_left ⟨finish, ran⟩

end Table

/-- What documented arguments of `jobs` name. -/
theorem jobs_arguments (built : BuiltinCall call "jobs".toList arguments)
    (usage : Usage call.argv) :
    (jobsIdentifier call = none ∧ ∀ argument ∈ call.argv, ∀ id, ¬ NamesId argument id) ∨
      ∃ job ∈ call.argv, jobsIdentifier call = some job ∧ (∃ id, NamesId job id) ∧
        ∀ argument ∈ call.argv, ∀ id, NamesId argument id → argument = job := by
  have argc := built.argc
  have argv := built.argv
  have word : ∀ id, ¬ NamesId ['j', 'o', 'b', 's'] id := by
    rintro id ⟨text, impossible, _⟩
    cases impossible
  have option : ∀ id, ¬ NamesId ['-', 't'] id := by
    rintro id ⟨text, impossible, _⟩
    cases impossible
  unfold jobsIdentifier jobsOptions
  rw [argv] at usage ⊢
  rcases usage_jobs_iff.mp usage with rfl | rfl | ⟨job, id, names, forms⟩
  · simp [argc, word]
  · simp [argc, word, option]
  · have own : startsWith job ['%'] = true := by
      obtain ⟨text, rfl, _⟩ := names
      rfl
    have other : job ≠ ['-', 't'] := by
      rintro rfl
      cases own
    have named : ∃ id, NamesId job id := ⟨id, names⟩
    refine .inr ⟨job, ?_⟩
    rcases forms with rfl | rfl | rfl
    · simp [argc, own, other, word, named]
    · simp [argc, own, option, word, named]
    · simp [argc, own, other, option, word, named]

/-- Success of `jobs` with documented arguments. -/
theorem succeeds_jobs_iff (built : BuiltinCall call "jobs".toList arguments)
    (usage : Usage call.argv) (ids : ∀ report ∈ reports, report.2.id = report.1.id) :
    Succeeds environment call start reports ↔
      JobsFinds call (reports.filterMap (·.2.remaining)) := by
  have own : Succeeds environment call start reports ↔
      ∀ argument ∈ call.argv, ∀ id, NamesId argument id →
        ∃ report ∈ reports, report.1.id = id ∧ isJobFinished report.2 = false := by
    constructor
    · intro succeeds
      cases succeeds with
      | jobs _ found => exact found
      | cd other _ _ _ | pwd other _ | lastExitCode other | fg other _ _ | bg other _ _
      | kill other _ _ _ => simp [built.called] at other
    · exact .jobs built.called
  rw [own]
  cases jobs_arguments built usage with
  | inl none =>
      obtain ⟨given, none⟩ := none
      refine iff_of_true (fun argument member id names => absurd names (none argument member id)) ?_
      intro identifier given'
      rw [given] at given'
      cases given'
  | inr one =>
      obtain ⟨job, member, given, ⟨id, names⟩, only⟩ := one
      constructor
      · intro found identifier given'
        cases given.symm.trans given'
        obtain ⟨report, inside, same, alive⟩ := found job member id names
        refine ⟨report.2, mem_remaining.mpr ⟨report, inside, rfl, alive⟩, ?_⟩
        rw [ids report inside, same]
        exact names
      · intro finds argument member' id' names'
        cases only argument member' id' names'
        obtain ⟨_, remains, names⟩ := finds job given
        obtain ⟨report, inside, rfl, alive⟩ := mem_remaining.mp remains
        exact ⟨report, inside, (ids report inside).symm.trans (names.unique names'), alive⟩

/-- When `jobs` finds the job it names, its arguments are documented and it reads no empty
slot. -/
def JobsSafe (call : CommandCall) (reports : List (Job × Job)) : Prop :=
  let jobs := reports.filterMap (·.2.remaining)
  call.argc ≤ 3 → JobsFinds call jobs → Usage call.argv ∧ ¬ JobsReads call jobs

theorem jobsCommand_keeps_iff (built : BuiltinCall call "jobs".toList arguments)
    {updated : Control} (consistent : updated.table.Consistent)
    (update : fdUpdateJobs environment call.stdout start.control = .ok () updated)
    (probes : Probes start.control updated)
    (left : updated.table.jobs = reports.filterMap (·.2.remaining))
    (ids : ∀ report ∈ reports, report.2.id = report.1.id) :
    Keeps environment call start reports (liftJob (jobsCommand environment call)) ↔
      JobsSafe call reports := by
  rw [JobsSafe, ← left]
  by_cases few : call.argc ≤ 3
  · rw [imp_iff_right few]
    have options : jobsCommand environment call start.control =
        printSelectedJobs environment call (jobsOptions call).1 (jobsOptions call).2 updated := by
      rw [jobsCommand_options few, bind_of_ok update]
    by_cases finds : JobsFinds call updated.table.jobs
    · have returns := @printSelectedJobs_returns_iff environment call _ consistent finds
      rw [imp_iff_right finds]
      have lifted : ∀ {value : Int} {finish : Shell},
          liftJob (jobsCommand environment call) start = .ok value finish ↔
            ∃ control, printSelectedJobs environment call (jobsOptions call).1
              (jobsOptions call).2 updated = .ok value control ∧
                finish = { start with control } := by
        intro value finish
        rw [liftJob_eq_ok, options]
      constructor
      · rintro ⟨value, finish, ran, contract⟩
        obtain ⟨control, ran, _⟩ := lifted.mp ran
        obtain ⟨zero, safe⟩ := (returns value).mp ⟨control, ran⟩
        have named : call.name ≠ "exit".toList := by simp [built.called]
        exact ⟨((contract.returned named).2.mp zero).1, safe⟩
      · rintro ⟨usage, safe⟩
        obtain ⟨control, ran⟩ := (returns 0).mpr ⟨rfl, safe⟩
        refine .of_success usage ⟨_, lifted.mpr ⟨control, ran, rfl⟩⟩ ?_
        exact (succeeds_jobs_iff built usage ids).mpr (left ▸ finds)
    · refine iff_of_true ?_ fun found => absurd found finds
      obtain ⟨message, ran⟩ := @printSelectedJobs_missing environment call _ consistent finds
      refine .of_refusal (liftJob_eq_ok.mpr ⟨_, options.trans ran, rfl⟩) (fun _ => ?_)
        fun usage succeeds => finds ?_
      · exact .of_update (.inl built.called) update probes
          (dprintf_prints call.stderr message updated).2.sends rfl rfl rfl
      · rw [left]
        exact (succeeds_jobs_iff built usage ids).mp succeeds
  · refine iff_of_true ?_ fun small => absurd small few
    have printed := (dprintf_prints call.stderr "jobs: too many arguments\n".toList updated).2
    have ran : jobsCommand environment call start.control =
        .ok 1 (updated.printed call.stderr "jobs: too many arguments\n".toList) := by
      rw [jobsCommand, bind_of_ok update, if_pos (by omega)]
      rfl
    refine .of_refusal (liftJob_eq_ok.mpr ⟨_, ran, rfl⟩) (fun _ => ?_) fun usage =>
      absurd usage ?_
    · exact .of_update (.inl built.called) update probes printed.sends rfl rfl rfl
    · rw [built.argv, usage_jobs_iff]
      have argc := built.argc
      rintro (rfl | rfl | ⟨job, id, _, rfl | rfl | rfl⟩) <;> simp at argc <;> omega

end Calls

/-! ## All built-ins -/

/-- What a built-in does once its call has been recorded. -/
def BuiltinKeeps (environment : Environment) (call : CommandCall) (start : Shell)
    (reports : List (Job × Job)) : Prop :=
  ∃ value finish, executeInternalCommand environment call start = .ok value finish ∧
    Contract environment call (start.calling call) reports value finish

/-- The calls for which the built-ins keep their contract. -/
structure BuiltinSafe (environment : Environment) (call : CommandCall) (start : Shell)
    (reports : List (Job × Job)) : Prop where
  pwd : call.argv = ["pwd".toList] → environment.getcwdError start.control.calls = none
  kill : call.name = "kill".toList → KillReads start.control.table call → Usage call.argv
  exit : call.argv = ["exit".toList, []] → start.shouldExit = true ∨
    ∃ report ∈ reports, isJobFinished report.2 = false
  jobs : call.name = "jobs".toList → JobsSafe call reports

section Dispatch

variable {environment : Environment} {call : CommandCall} {start : Shell}
  {reports : List (Job × Job)} {name : CString} {arguments : List CString}

/-- The conditions of the other built-ins do not matter. -/
theorem builtinSafe_iff (built : BuiltinCall call name arguments) :
    BuiltinSafe environment call start reports ↔
      (name = "pwd".toList → arguments = [] →
        environment.getcwdError start.control.calls = none) ∧
      (name = "kill".toList → KillReads start.control.table call → Usage call.argv) ∧
      (name = "exit".toList → arguments = [[]] → start.shouldExit = true ∨
        ∃ report ∈ reports, isJobFinished report.2 = false) ∧
      (name = "jobs".toList → JobsSafe call reports) := by
  have called := built.called
  have argv := built.argv
  constructor
  · rintro ⟨pwd, kill, exit, jobs⟩
    rw [called] at kill jobs
    rw [argv] at pwd exit
    refine ⟨?_, kill, ?_, jobs⟩
    · rintro rfl rfl
      exact pwd rfl
    · rintro rfl rfl
      exact exit rfl
  · rintro ⟨pwd, kill, exit, jobs⟩
    rw [← called] at kill jobs
    refine ⟨fun alone => ?_, kill, fun empty => ?_, jobs⟩
    · cases argv.symm.trans alone
      exact pwd rfl rfl
    · cases argv.symm.trans empty
      exact exit rfl rfl

theorem builtinKeeps_iff {action : ShellAction Int}
    (same : executeInternalCommand environment call start = action (start.calling call)) :
    BuiltinKeeps environment call start reports ↔
      Keeps environment call (start.calling call) reports action := by
  unfold BuiltinKeeps Keeps
  rw [same]

/-- The update that some built-ins start with. -/
theorem calling_updates (environment : Environment) (call : CommandCall) (fd : Int)
    (consistent : start.control.table.Consistent) :
    ∃ updated reports,
      JobsReported environment start.control.calls start.control.table.slots reports ∧
      fdUpdateJobs environment fd (start.calling call).control = .ok () updated ∧
      updated.table.Consistent ∧ Probes (start.calling call).control updated ∧
      updated.table.jobs = reports.filterMap (·.2.remaining) ∧
      ∀ report ∈ reports, report.2.id = report.1.id := by
  obtain ⟨updated, reports, reported, update, left, _, probes⟩ :=
    @fdUpdateJobs_reported environment fd (start.calling call).control consistent
  have moves : Moves (Course fun _ => False) (fdUpdateJobs environment fd) :=
    fdUpdateJobs_moves environment fd
  have consistent' := Course.consistent ((moves _).of_ok update) consistent
  exact ⟨updated, reports, reported, update, consistent', probes, left, reported.ids.1⟩

theorem executeInternalCommand_calling (environment : Environment) (call : CommandCall)
    (start : Shell) : executeInternalCommand environment call start =
      (if call.name = "cd".toList then cd environment call
      else if call.name = "?".toList then lastExitCodeCommand call
      else if call.name = "exit".toList then exitCommand environment call
      else if call.name = "pwd".toList then pwd environment call
      else if call.name = "jobs".toList then liftJob (jobsCommand environment call)
      else if call.name = "kill".toList then liftJob (killCommand environment call)
      else if call.name = "fg".toList then liftJob (fgCommand environment call)
      else if call.name = "bg".toList then liftJob (bgCommand environment call)
      else return 0) (start.calling call) := rfl

/-- Every built-in keeps its contract for any arguments and any outcome of the system
calls, with exactly these exceptions. -/
theorem executeInternalCommand_keeps_iff (environment : Environment)
    (built : BuiltinCall call name arguments) (builtin : isInternalCommand call = true)
    (consistent : start.control.table.Consistent) :
    ∃ reports, JobsReported environment start.control.calls start.control.table.slots reports ∧
      (BuiltinKeeps environment call start reports ↔
        BuiltinSafe environment call start reports) := by
  obtain ⟨_, reports, reported, update, _, probes, left, _⟩ :=
    calling_updates environment call stderrFileno consistent
  have called := built.called
  have dispatch := executeInternalCommand_calling environment call start
  rw [isInternalCommand, called, List.contains_iff_mem] at builtin
  simp only [internalCommands, List.mem_cons, List.not_mem_nil, or_false] at builtin
  rcases builtin with rfl | rfl | rfl | rfl | rfl | rfl | rfl | rfl
  case inl =>
    have same : executeInternalCommand environment call start =
        cd environment call (start.calling call) := by simp [dispatch, called]
    refine ⟨reports, reported, ?_⟩
    rw [builtinSafe_iff built, builtinKeeps_iff same]
    exact iff_of_true (cd_keeps built) (by simp)
  case inr.inl =>
    have same : executeInternalCommand environment call start =
        exitCommand environment call (start.calling call) := by simp [dispatch, called]
    refine ⟨reports, reported, ?_⟩
    rw [builtinSafe_iff built, builtinKeeps_iff same,
      exitCommand_keeps_iff built update probes left]
    simp [Shell.calling]
  case inr.inr.inl =>
    have same : executeInternalCommand environment call start =
        pwd environment call (start.calling call) := by simp [dispatch, called]
    refine ⟨reports, reported, ?_⟩
    rw [builtinSafe_iff built, builtinKeeps_iff same, pwd_keeps_iff built]
    simp [Shell.calling]
  case inr.inr.inr.inl =>
    have same : executeInternalCommand environment call start =
        lastExitCodeCommand call (start.calling call) := by simp [dispatch, called]
    refine ⟨reports, reported, ?_⟩
    rw [builtinSafe_iff built, builtinKeeps_iff same]
    exact iff_of_true (lastExitCodeCommand_keeps built) (by simp)
  case inr.inr.inr.inr.inl =>
    have same : executeInternalCommand environment call start =
        liftJob (jobsCommand environment call) (start.calling call) := by simp [dispatch, called]
    obtain ⟨updated, reports, reported, update, consistent', probes, left, ids⟩ :=
      calling_updates environment call call.stdout consistent
    refine ⟨reports, reported, ?_⟩
    rw [builtinSafe_iff built, builtinKeeps_iff same,
      jobsCommand_keeps_iff built consistent' update probes left ids]
    simp
  case inr.inr.inr.inr.inr.inl =>
    have same : executeInternalCommand environment call start =
        liftJob (fgCommand environment call) (start.calling call) := by simp [dispatch, called]
    refine ⟨reports, reported, ?_⟩
    rw [builtinSafe_iff built, builtinKeeps_iff same]
    exact iff_of_true (fgCommand_keeps consistent built) (by simp)
  case inr.inr.inr.inr.inr.inr.inl =>
    have same : executeInternalCommand environment call start =
        liftJob (bgCommand environment call) (start.calling call) := by simp [dispatch, called]
    refine ⟨reports, reported, ?_⟩
    rw [builtinSafe_iff built, builtinKeeps_iff same]
    exact iff_of_true (bgCommand_keeps built) (by simp)
  case inr.inr.inr.inr.inr.inr.inr =>
    have same : executeInternalCommand environment call start =
        liftJob (killCommand environment call) (start.calling call) := by simp [dispatch, called]
    refine ⟨reports, reported, ?_⟩
    rw [builtinSafe_iff built, builtinKeeps_iff same, killCommand_keeps_iff built]
    simp [Shell.calling]

end Dispatch

/-- A shell with a sleeping job. -/
def sleepingShell : Shell := { initInternals "/".toList with control := sleepingJobs }

theorem jobs_of_sleeping_shell :
    ∃ reports, BuiltinKeeps .sleeping jobsCall sleepingShell reports := by
  have consistent : sleepingShell.control.table.Consistent :=
    consistent_initJobTable.insert (by decide) rfl sleepJob
  have built : BuiltinCall jobsCall "jobs".toList [] := ⟨rfl, rfl, rfl⟩
  obtain ⟨reports, _, keeps⟩ :=
    executeInternalCommand_keeps_iff .sleeping built (by decide) consistent
  refine ⟨reports, keeps.mpr ((builtinSafe_iff built).mpr ?_)⟩
  refine ⟨by simp, by simp, by simp, fun _ _ _ => ⟨.jobs, fun reads => ?_⟩⟩
  cases reads.1

/-- The command `kill -9`. -/
def killAlone : CommandCall := newCommandCall ["kill".toList, "-9".toList] []

/-- Without a target `kill` sends nothing and returns 0. -/
theorem kill_alone_returns_zero :
    (∃ finish, executeInternalCommand (.stopping false) killAlone (initInternals []) =
        .ok 0 finish) ∧
      ¬ Usage killAlone.argv ∧
      ∀ reports, ¬ BuiltinKeeps (.stopping false) killAlone (initInternals []) reports := by
  have unused : ¬ Usage killAlone.argv := by
    change ¬ Usage ("kill".toList :: ["-9".toList])
    rw [usage_kill_iff]
    rintro (⟨target, same, bare, _⟩ | ⟨_, _, same, _⟩)
    · cases same
      cases bare
    · cases same
  refine ⟨⟨_, rfl⟩, unused, ?_⟩
  rintro reports ⟨value, finish, ran, contract⟩
  cases ran
  exact unused ((contract.returned (by decide)).2.mp rfl).1

end Jsh
