import Jsh.JobStatuses

/-!
# Waiting for jobs

The runs of the two loops that wait for the processes of a job. Both wait for the
processes that are not recorded as finished, in their order, up to the first failure.
-/

set_option autoImplicit false

namespace Jsh

open Library

/-! ## The loops -/

/-- A loop past the subjobs of a job, from the system call number `count` on: whether it
goes through all of them, the subjobs after it, and the processes it has waited for. -/
inductive Waited (environment : Environment) :
    Nat → List (Option Subjob) → Bool → List (Option Subjob) → List Int → Prop
  | nil {count : Nat} : Waited environment count [] true [] []
  | absent {count : Nat} {rest rest' : List (Option Subjob)} {all : Bool} {pids : List Int} :
      Waited environment count rest all rest' pids →
      Waited environment count (none :: rest) all (none :: rest') pids
  | finished {count : Nat} {subjob : Subjob} {rest rest' : List (Option Subjob)} {all : Bool}
      {pids : List Int} :
      isFinishedStatus subjob.lastStatus = true →
      Waited environment count rest all rest' pids →
      Waited environment count (some subjob :: rest) all (some subjob :: rest') pids
  | failed {count : Nat} {subjob : Subjob} {rest : List (Option Subjob)} :
      isFinishedStatus subjob.lastStatus = false →
      environment.waitpid count subjob.pid = .failed →
      Waited environment count (some subjob :: rest) false (some subjob :: rest) [subjob.pid]
  | waited {count : Nat} {subjob : Subjob} {lastStatus : JobStatus}
      {rest rest' : List (Option Subjob)} {all : Bool} {pids : List Int} :
      isFinishedStatus subjob.lastStatus = false →
      processWaitpidResponse (environment.waitpid count subjob.pid) subjob.lastStatus =
        some lastStatus →
      Waited environment (count + 1) rest all rest' pids →
      Waited environment count (some subjob :: rest) all (some { subjob with lastStatus } :: rest')
        (subjob.pid :: pids)

/-- The state after the processes have been waited for. -/
def Control.waited (control : Control) (pids : List Int) : Control :=
  { control with
    trace := control.trace ++ pids.map .waitpid
    calls := control.calls + pids.length }

theorem Control.waited_nil (control : Control) : control.waited [] = control := by
  simp [Control.waited]

theorem Control.waited_cons (control : Control) (pid : Int) (pids : List Int) :
    (control.waited [pid]).waited pids = control.waited (pid :: pids) := by
  simp [Control.waited, Nat.add_comm, Nat.add_left_comm]

theorem waitpid_eq (environment : Environment) (pid : Int) (start : Control) :
    waitpid environment pid start =
      .ok (environment.waitpid start.calls pid) (start.waited [pid]) := rfl

theorem processWaitpidResponse_eq_none {response : WaitResponse} {lastStatus : JobStatus} :
    processWaitpidResponse response lastStatus = none ↔ response = .failed := by
  cases response <;> simp [processWaitpidResponse]

theorem waitForSubjobs_waited (environment : Environment) (subjobs : List (Option Subjob)) :
    ∀ start : Control, ∃ all subjobs' pids,
      Waited environment start.calls subjobs all subjobs' pids ∧
        waitForSubjobs environment subjobs start = .ok (all, subjobs') (start.waited pids) := by
  induction subjobs with
  | nil => exact fun start => ⟨true, [], [], .nil, by rw [start.waited_nil]; rfl⟩
  | cons slot rest ih =>
      intro start
      cases slot with
      | none =>
          obtain ⟨all, rest', pids, waited, ran⟩ := ih start
          refine ⟨all, none :: rest', pids, .absent waited, ?_⟩
          rw [waitForSubjobs, bind_of_ok ran]
          rfl
      | some subjob =>
          rw [waitForSubjobs]
          cases finished : isFinishedStatus subjob.lastStatus with
          | true =>
              obtain ⟨all, rest', pids, waited, ran⟩ := ih start
              refine ⟨all, some subjob :: rest', pids, .finished finished waited, ?_⟩
              rw [if_pos rfl, bind_of_ok ran]
              rfl
          | false =>
              rw [if_neg Bool.false_ne_true, bind_of_ok (waitpid_eq environment subjob.pid start)]
              cases answer : processWaitpidResponse (environment.waitpid start.calls subjob.pid)
                  subjob.lastStatus with
              | none =>
                  exact ⟨false, some subjob :: rest, [subjob.pid],
                    .failed finished (processWaitpidResponse_eq_none.mp answer), rfl⟩
              | some lastStatus =>
                  obtain ⟨all, rest', pids, waited, ran⟩ := ih (start.waited [subjob.pid])
                  refine ⟨all, some { subjob with lastStatus } :: rest', subjob.pid :: pids,
                    .waited finished answer waited, ?_⟩
                  dsimp only
                  rw [bind_of_ok ran, start.waited_cons]
                  rfl

/-- The exit status a response for the first subjob gives. -/
def chiefExitStatus (environment : Environment) (count : Nat) : List (Option Subjob) → Int
  | some subjob :: _ =>
      if isFinishedStatus subjob.lastStatus then 0
      else
        match environment.waitpid count subjob.pid with
        | .changed status =>
            if isFinishedStatus (jobStatusFromInt status) then (exitStatus status : Int) else 0
        | _ => 0
  | _ => 0

theorem blockingWaitForSubjobs_waited (environment : Environment) (subjobs : List (Option Subjob)) :
    ∀ (index : Nat) (exitCode : Int) (start : Control), ∃ all subjobs' pids,
      Waited environment start.calls subjobs all subjobs' pids ∧
        blockingWaitForSubjobs environment (index + 1) exitCode subjobs start =
          .ok (if all then exitCode else -1, subjobs') (start.waited pids) := by
  induction subjobs with
  | nil => exact fun _ _ start => ⟨true, [], [], .nil, by rw [start.waited_nil]; rfl⟩
  | cons slot rest ih =>
      intro index exitCode start
      cases slot with
      | none =>
          obtain ⟨all, rest', pids, waited, ran⟩ := ih (index + 1) exitCode start
          refine ⟨all, none :: rest', pids, .absent waited, ?_⟩
          rw [blockingWaitForSubjobs, bind_of_ok ran]
          rfl
      | some subjob =>
          rw [blockingWaitForSubjobs]
          cases finished : isFinishedStatus subjob.lastStatus with
          | true =>
              obtain ⟨all, rest', pids, waited, ran⟩ := ih (index + 1) exitCode start
              refine ⟨all, some subjob :: rest', pids, .finished finished waited, ?_⟩
              rw [if_pos rfl, bind_of_ok ran]
              rfl
          | false =>
              rw [if_neg Bool.false_ne_true, bind_of_ok (waitpid_eq environment subjob.pid start)]
              cases answer : processWaitpidResponse (environment.waitpid start.calls subjob.pid)
                  subjob.lastStatus with
              | none =>
                  exact ⟨false, some subjob :: rest, [subjob.pid],
                    .failed finished (processWaitpidResponse_eq_none.mp answer), rfl⟩
              | some lastStatus =>
                  obtain ⟨all, rest', pids, waited, ran⟩ :=
                    ih (index + 1) exitCode (start.waited [subjob.pid])
                  refine ⟨all, some { subjob with lastStatus } :: rest', subjob.pid :: pids,
                    .waited finished answer waited, ?_⟩
                  dsimp only
                  split
                  · rw [if_neg (by simp), bind_of_ok ran, start.waited_cons]
                    rfl
                  · rw [bind_of_ok ran, start.waited_cons]
                    rfl

/-- Only a response for the first subjob sets the exit status. -/
theorem blockingWaitForSubjobs_eq (environment : Environment) (subjobs : List (Option Subjob))
    (start : Control) : ∃ all subjobs' pids,
      Waited environment start.calls subjobs all subjobs' pids ∧
        blockingWaitForSubjobs environment 0 0 subjobs start =
          .ok (if all then chiefExitStatus environment start.calls subjobs else -1, subjobs')
            (start.waited pids) := by
  cases subjobs with
  | nil => exact ⟨true, [], [], .nil, by rw [start.waited_nil]; rfl⟩
  | cons slot rest =>
      cases slot with
      | none =>
          obtain ⟨all, rest', pids, waited, ran⟩ :=
            blockingWaitForSubjobs_waited environment rest 0 0 start
          refine ⟨all, none :: rest', pids, .absent waited, ?_⟩
          rw [blockingWaitForSubjobs, bind_of_ok ran]
          rfl
      | some subjob =>
          rw [blockingWaitForSubjobs, chiefExitStatus]
          cases finished : isFinishedStatus subjob.lastStatus with
          | true =>
              obtain ⟨all, rest', pids, waited, ran⟩ :=
                blockingWaitForSubjobs_waited environment rest 0 0 start
              refine ⟨all, some subjob :: rest', pids, .finished finished waited, ?_⟩
              rw [if_pos rfl, if_pos rfl, bind_of_ok ran]
              rfl
          | false =>
              rw [if_neg Bool.false_ne_true, if_neg Bool.false_ne_true,
                bind_of_ok (waitpid_eq environment subjob.pid start)]
              cases response : environment.waitpid start.calls subjob.pid with
              | failed =>
                  exact ⟨false, some subjob :: rest, [subjob.pid], .failed finished response, rfl⟩
              | unchanged =>
                  obtain ⟨all, rest', pids, waited, ran⟩ :=
                    blockingWaitForSubjobs_waited environment rest 0 0 (start.waited [subjob.pid])
                  refine ⟨all, some subjob :: rest', subjob.pid :: pids,
                    .waited finished (by rw [response]; rfl) waited, ?_⟩
                  simp only [processWaitpidResponse]
                  rw [bind_of_ok ran, start.waited_cons]
                  rfl
              | changed status =>
                  obtain ⟨all, rest', pids, waited, ran⟩ :=
                    blockingWaitForSubjobs_waited environment rest 0
                      (if isFinishedStatus (jobStatusFromInt status) then (exitStatus status : Int)
                        else 0) (start.waited [subjob.pid])
                  refine ⟨all, some { subjob with lastStatus := jobStatusFromInt status } :: rest',
                    subjob.pid :: pids, .waited finished (by rw [response]; rfl) waited, ?_⟩
                  have same : (jobStatusFromInt status ≠ .running ∧
                      jobStatusFromInt status ≠ .stopped) ↔
                        isFinishedStatus (jobStatusFromInt status) = true := by
                    cases jobStatusFromInt status <;> decide
                  simp only [processWaitpidResponse, true_and, same]
                  rw [bind_of_ok ran, start.waited_cons]
                  rfl

/-! ## The functions -/

theorem waitForJob_eq (environment : Environment) (job : Job) (start : Control) :
    ∃ all subjobs pids, Waited environment start.calls job.subjobs all subjobs pids ∧
      waitForJob environment job start =
        if all then
          .ok (true, ({ job with subjobs } : Job).assessed environment (start.waited pids))
            ((start.waited pids).assessed { job with subjobs })
        else .ok (false, { job with subjobs }) (start.waited pids) := by
  obtain ⟨all, subjobs, pids, waited, ran⟩ := waitForSubjobs_waited environment job.subjobs start
  refine ⟨all, subjobs, pids, waited, ?_⟩
  rw [waitForJob, bind_of_ok ran]
  cases all with
  | true =>
      simp only [if_true]
      rw [bind_of_ok (updateJobStatus_eq environment _ _)]
      rfl
  | false => rfl

theorem chiefExitStatus_ne (environment : Environment) (count : Nat)
    (subjobs : List (Option Subjob)) : chiefExitStatus environment count subjobs ≠ -1 := by
  unfold chiefExitStatus
  repeat' split
  all_goals omega

theorem blockingWaitForJob_eq (environment : Environment) (job : Job) (start : Control) :
    ∃ all subjobs pids, Waited environment start.calls job.subjobs all subjobs pids ∧
      blockingWaitForJob environment job start =
        if all then
          .ok (chiefExitStatus environment start.calls job.subjobs,
              ({ job with subjobs } : Job).assessed environment (start.waited pids))
            ((start.waited pids).assessed { job with subjobs })
        else .ok (-1, { job with subjobs }) (start.waited pids) := by
  obtain ⟨all, subjobs, pids, waited, ran⟩ :=
    blockingWaitForSubjobs_eq environment job.subjobs start
  refine ⟨all, subjobs, pids, waited, ?_⟩
  rw [blockingWaitForJob, bind_of_ok ran]
  cases all with
  | true =>
      simp only [if_true]
      rw [if_neg (chiefExitStatus_ne environment start.calls job.subjobs),
        bind_of_ok (updateJobStatus_eq environment _ _)]
      rfl
  | false => rfl

/-! ## What is waited for -/

/-- The subjobs that are not recorded as finished. -/
def unfinished (subjobs : List (Option Subjob)) : List Subjob :=
  subjobs.reduceOption.filter fun subjob => !isFinishedStatus subjob.lastStatus

@[simp] theorem unfinished_nil : unfinished [] = [] := rfl

@[simp] theorem unfinished_absent (rest : List (Option Subjob)) :
    unfinished (none :: rest) = unfinished rest := rfl

theorem unfinished_finished {subjob : Subjob} (rest : List (Option Subjob))
    (finished : isFinishedStatus subjob.lastStatus = true) :
    unfinished (some subjob :: rest) = unfinished rest := by
  simp [unfinished, List.reduceOption_cons_of_some, finished]

theorem unfinished_cons {subjob : Subjob} (rest : List (Option Subjob))
    (alive : isFinishedStatus subjob.lastStatus = false) :
    unfinished (some subjob :: rest) = subjob :: unfinished rest := by
  simp [unfinished, List.reduceOption_cons_of_some, alive]

section Waited

variable {environment : Environment} {count : Nat} {subjobs subjobs' : List (Option Subjob)}
  {all : Bool} {pids : List Int}

theorem Waited.updated (waited : Waited environment count subjobs all subjobs' pids) :
    SubjobsUpdated subjobs subjobs' := by
  induction waited with
  | nil => exact .nil
  | absent _ ih => exact .cons .none ih
  | finished _ _ ih => exact .cons (.some (.refl _)) ih
  | failed _ _ => exact .refl _
  | waited alive _ _ ih =>
      refine .cons (.some ⟨rfl, rfl, fun finished => ?_⟩) ih
      rw [alive] at finished
      cases finished

/-- The environment determines what a loop does. -/
theorem Waited.unique {all' : Bool} {subjobs'' : List (Option Subjob)} {pids' : List Int}
    (waited : Waited environment count subjobs all subjobs' pids)
    (waited' : Waited environment count subjobs all' subjobs'' pids') :
    all = all' ∧ subjobs' = subjobs'' ∧ pids = pids' := by
  induction waited generalizing all' subjobs'' pids' with
  | nil =>
      cases waited'
      exact ⟨rfl, rfl, rfl⟩
  | absent _ ih =>
      cases waited' with
      | absent rest =>
          obtain ⟨rfl, rfl, rfl⟩ := ih rest
          exact ⟨rfl, rfl, rfl⟩
  | finished past _ ih =>
      cases waited' with
      | finished _ rest =>
          obtain ⟨rfl, rfl, rfl⟩ := ih rest
          exact ⟨rfl, rfl, rfl⟩
      | failed alive _ | waited alive _ _ =>
          rw [past] at alive
          cases alive
  | failed alive response =>
      cases waited' with
      | finished past _ =>
          rw [past] at alive
          cases alive
      | failed _ _ => exact ⟨rfl, rfl, rfl⟩
      | waited _ answer _ =>
          rw [response] at answer
          cases answer
  | waited alive answer _ ih =>
      cases waited' with
      | finished past _ =>
          rw [past] at alive
          cases alive
      | failed _ response =>
          rw [response] at answer
          cases answer
      | waited _ answer' rest =>
          cases answer.symm.trans answer'
          obtain ⟨rfl, rfl, rfl⟩ := ih rest
          exact ⟨rfl, rfl, rfl⟩

/-- A failure leaves a subjob that is not finished. -/
theorem Waited.unfinished (waited : Waited environment count subjobs false subjobs' pids) :
    ∃ subjob : Subjob, some subjob ∈ subjobs' ∧ isFinishedStatus subjob.lastStatus = false := by
  generalize failed : false = all at waited
  induction waited with
  | nil => cases failed
  | absent _ ih | finished _ _ ih | waited _ _ _ ih =>
      obtain ⟨subjob, member, alive⟩ := ih failed
      exact ⟨subjob, .tail _ member, alive⟩
  | failed alive _ => exact ⟨_, .head _, alive⟩

/-- Only subjobs that are not finished are waited for, each at most once. -/
theorem Waited.pids_prefix (waited : Waited environment count subjobs all subjobs' pids) :
    pids <+: (Jsh.unfinished subjobs).map (·.pid) ∧
      (all = true → pids = (Jsh.unfinished subjobs).map (·.pid)) := by
  induction waited with
  | nil => exact ⟨List.prefix_refl _, fun _ => rfl⟩
  | absent _ ih => exact ih
  | finished past _ ih =>
      rw [unfinished_finished _ past]
      exact ih
  | failed alive _ =>
      rw [unfinished_cons _ alive]
      exact ⟨⟨_, rfl⟩, fun impossible => by cases impossible⟩
  | waited alive _ _ ih =>
      rw [unfinished_cons _ alive, List.map_cons]
      exact ⟨(List.cons_prefix_cons).mpr ⟨rfl, ih.1⟩, fun complete => by rw [← ih.2 complete]⟩

end Waited

/-! ## Reports -/

/-- The number of a signal. -/
abbrev Signal := { signal : Nat // 0 < signal ∧ signal < 127 }

/-- What a `waitpid` that blocks reports about a process. -/
inductive Report where
  | exited (code : Fin 256)
  | killed (signal : Signal) (core : Bool)
  | stopped (signal : Signal)
  deriving DecidableEq

/-- The status word of a report. -/
def Report.word : Report → Nat
  | .exited code => code * 256
  | .killed signal core => signal + if core then 128 else 0
  | .stopped signal => signal * 256 + 127

def Report.jobStatus : Report → JobStatus
  | .exited _ => .done
  | .killed _ _ => .killed
  | .stopped _ => .stopped

@[simp] theorem jobStatusFromInt_word (report : Report) :
    jobStatusFromInt report.word = report.jobStatus := by
  unfold jobStatusFromInt
  cases report with
  | exited code => simp [Report.word, Report.jobStatus, ifExited, Nat.mul_mod]
  | killed signal core =>
      have exited : ifExited (Report.killed signal core).word = false := by
        simp only [ifExited, Report.word, beq_eq_false_iff_ne]
        split <;> omega
      have stopped : ifStopped (Report.killed signal core).word = false := by
        simp only [ifStopped, Report.word, beq_eq_false_iff_ne]
        split <;> omega
      have continued : ifContinued (Report.killed signal core).word = false := by
        simp only [ifContinued, Report.word, beq_eq_false_iff_ne]
        split <;> omega
      have signaled : ifSignaled (Report.killed signal core).word = true := by
        rw [ifSignaled, Bool.and_eq_true, decide_eq_true_iff, decide_eq_true_iff, Report.word]
        split <;> omega
      simp [exited, stopped, continued, signaled, Report.jobStatus]
  | stopped signal =>
      have exited : ifExited (Report.stopped signal).word = false := by
        simp only [ifExited, Report.word, beq_eq_false_iff_ne]
        omega
      have stopped : ifStopped (Report.stopped signal).word = true := by
        simp only [ifStopped, Report.word, beq_iff_eq]
        omega
      simp [exited, stopped, Report.jobStatus]

theorem exitStatus_exited (code : Fin 256) : exitStatus (Report.exited code).word = code := by
  simp only [exitStatus, Report.word]
  omega

/-- The status word of a killed process has no exit status. -/
theorem exitStatus_killed (signal : Signal) (core : Bool) :
    exitStatus (Report.killed signal core).word = 0 := by
  simp only [exitStatus, Report.word]
  split <;> omega

/-- The processes are reported on in their order, from the system call number `count` on. -/
inductive Answered (environment : Environment) : Nat → List Subjob → List Report → Prop
  | nil {count : Nat} : Answered environment count [] []
  | cons {count : Nat} {subjob : Subjob} {rest : List Subjob} {report : Report}
      {reports : List Report} :
      environment.waitpid count subjob.pid = .changed report.word →
      Answered environment (count + 1) rest reports →
      Answered environment count (subjob :: rest) (report :: reports)

section Answered

variable {environment : Environment} {count : Nat} {subjobs subjobs' : List (Option Subjob)}
  {all : Bool} {pids : List Int} {reports : List Report}

/-- When all waits are answered, the recorded statuses are those of the processes that
had finished before, and those reported. -/
theorem Waited.answered (waited : Waited environment count subjobs all subjobs' pids) :
    ∀ {reports : List Report}, Answered environment count (Jsh.unfinished subjobs) reports →
    all = true ∧ ∀ status,
      (∃ subjob : Subjob, some subjob ∈ subjobs' ∧ subjob.lastStatus = status) ↔
        (∃ subjob : Subjob, some subjob ∈ subjobs ∧
            isFinishedStatus subjob.lastStatus = true ∧ subjob.lastStatus = status) ∨
          ∃ report ∈ reports, report.jobStatus = status := by
  induction waited with
  | nil =>
      intro reports answers
      cases answers
      simp
  | absent _ ih =>
      intro reports answers
      simpa using ih answers
  | finished past _ ih =>
      intro reports answers
      rw [unfinished_finished _ past] at answers
      obtain ⟨complete, statuses⟩ := ih answers
      refine ⟨complete, fun status => ?_⟩
      simp only [List.mem_cons, Option.some.injEq, or_and_right, exists_or, exists_eq_left,
        statuses status, past, true_and, or_assoc]
  | failed alive failure =>
      intro reports answers
      rw [unfinished_cons _ alive] at answers
      cases answers with
      | cons answer _ =>
          rw [failure] at answer
          cases answer
  | @waited count subjob lastStatus rest rest' all pids alive processed _ ih =>
      intro reports answers
      rw [unfinished_cons _ alive] at answers
      cases answers with
      | @cons _ _ _ report reports answer answers =>
          obtain ⟨complete, statuses⟩ := ih answers
          refine ⟨complete, fun status => ?_⟩
          rw [answer] at processed
          simp only [processWaitpidResponse, jobStatusFromInt_word, Option.some.injEq] at processed
          subst processed
          simp only [List.mem_cons, Option.some.injEq, or_and_right, exists_or, exists_eq_left,
            statuses status, alive, Bool.false_eq_true, false_and, false_or]
          rw [or_left_comm]

/-- The exit status when the wait for the first subjob is answered. -/
theorem chiefExitStatus_answered {subjob : Subjob} {rest : List (Option Subjob)} {report : Report}
    (alive : isFinishedStatus subjob.lastStatus = false)
    (answers : Answered environment count (unfinished (some subjob :: rest)) (report :: reports)) :
    chiefExitStatus environment count (some subjob :: rest) =
      match report with
      | .exited code => (code : Nat)
      | _ => 0 := by
  rw [unfinished_cons _ alive] at answers
  cases answers with
  | cons answer _ =>
      simp only [chiefExitStatus, alive, answer, jobStatusFromInt_word]
      cases report with
      | exited code => simp [Report.jobStatus, isFinishedStatus, exitStatus_exited]
      | killed signal core => simp [Report.jobStatus, isFinishedStatus, exitStatus_killed]
      | stopped signal => simp [Report.jobStatus, isFinishedStatus]

end Answered

end Jsh
