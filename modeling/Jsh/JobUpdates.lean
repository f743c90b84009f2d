import Jsh.JobTable
import Jsh.Waits

/-!
# Updates of the jobs in the table

The runs of the two functions that wait for a job of the table, write it back and remove
it once it is finished.
-/

set_option autoImplicit false

namespace Jsh

open Library

/-! ## Steps -/

/-- The state after a line has been printed. -/
def Control.printed (control : Control) (fd : Int) (text : CString) : Control :=
  { control with trace := control.trace ++ [.print fd text] }

/-- The state after the terminal has been given to a process group. -/
def Control.gave (control : Control) (pgid : Int) : Control :=
  { control with trace := control.trace ++ [.tcsetpgrp pgid], calls := control.calls + 1 }

/-- The state after a signal has been sent to a job. -/
def Control.signalled (control : Control) (job : Job) (signal : Int) : Control :=
  { control with
    trace := control.trace ++ [.signalJob job (-job.pgid) signal] ++ [.kill (-job.pgid) signal]
    calls := control.calls + 1 }

section Tables

variable (control : Control)

@[simp] theorem Control.store_table (table : JobTable) : (control.store table).table = table := rfl

@[simp] theorem Control.waited_table (pids : List Int) :
    (control.waited pids).table = control.table := rfl

@[simp] theorem Control.printed_table (fd : Int) (text : CString) :
    (control.printed fd text).table = control.table := rfl

@[simp] theorem Control.gave_table (pgid : Int) : (control.gave pgid).table = control.table := rfl

@[simp] theorem Control.signalled_table (job : Job) (signal : Int) :
    (control.signalled job signal).table = control.table := rfl

@[simp] theorem Control.assessed_table (job : Job) :
    (control.assessed job).table = control.table := by
  unfold Control.assessed
  split <;> rfl

end Tables

/-- The line of `print_job`. -/
def Job.line (job : Job) : CString :=
  "[".toList ++ decimal job.id ++ "]\t".toList ++ decimal job.pgid ++ "\t".toList ++
    jobStatusToString job.status ++ "\t".toList ++ job.commandString ++ "\n".toList

theorem printJob_eq (job : Job) (fd : Int) (start : Control) :
    printJob job fd start = .ok () (start.printed fd job.line) := rfl

theorem tcsetpgrp_eq (environment : Environment) (pgid : Int) (start : Control) :
    tcsetpgrp environment pgid start =
      .ok (environment.tcsetpgrp start.calls pgid) (start.gave pgid) := rfl

theorem signalJob_eq (environment : Environment) (job : Job) (signal : Int) (start : Control) :
    signalJob environment job signal start =
      .ok (environment.kill start.calls (-job.pgid) signal) (start.signalled job signal) := rfl

theorem JobTable.slot_erase {table : JobTable} {index : Nat} {job : Job}
    (found : table.slot index = some job) (other : Nat) :
    (table.erase index).slot other = if other = index then none else table.slot other :=
  table.slot_write (JobTable.lt_of_slot found) none other

theorem JobTable.slot_update {table : JobTable} {index : Nat} {job : Job}
    (found : table.slot index = some job) (job' : Job) :
    (table.write index (some job')).slot index = some job' := by
  rw [table.slot_write (JobTable.lt_of_slot found), if_pos rfl]

/-- A job of the table is removed from its slot. -/
theorem removeJob_slot {control : Control} (consistent : control.table.Consistent) {index : Nat}
    {job : Job} (found : control.table.slot index = some job) :
    removeJob job.id control = .ok 0 (control.store (control.table.erase index)) := by
  have slot := consistent.ids index job found
  have used : control.table.InUse (index + 1) := ⟨Nat.succ_pos index, by simp [found]⟩
  obtain ⟨_, within, positive⟩ := consistent.bounds used
  unfold removeJob
  rw [bind_of_ok (get_apply control), slot, if_neg (by omega), Nat.add_sub_cancel, found]
  rfl

/-! ## `fd_update_jobs` -/

/-- The state after a job of the table has been written back. -/
def Control.rewritten (control : Control) (index : Nat) (job : Job) : Control :=
  control.store (control.table.write index (some job))

theorem setTable_write (control : Control) (index : Nat) (job : Job) :
    setTable (control.table.write index (some job)) control = .ok () (control.rewritten index job) :=
  rfl

theorem Control.rewritten_slot {control : Control} {index : Nat} {job : Job} (job' : Job)
    (consistent : control.table.Consistent) (found : control.table.slot index = some job)
    (same : job'.id = job.id) :
    (control.rewritten index job').table.Consistent ∧
      (control.rewritten index job').table.slot index = some job' :=
  ⟨consistent.update found same, JobTable.slot_update found job'⟩

/-- The state after a job has been printed if its status has changed, and removed if it is
finished. -/
def Control.announced (control : Control) (index : Nat) (lastStatus : JobStatus) (job : Job)
    (fd : Int) : Control :=
  let control := if lastStatus ≠ job.status then control.printed fd job.line else control
  if isJobFinished job then control.store (control.table.erase index) else control

/-- The end of an update: a finished job is removed. -/
theorem removeFinished_eq {control : Control} (consistent : control.table.Consistent) {index : Nat}
    {job : Job} (found : control.table.slot index = some job) :
    (if isJobFinished job then do
        let _ ← removeJob job.id
        pure ()
      else pure () : JobAction Unit) control =
        .ok () (if isJobFinished job then control.store (control.table.erase index) else control) := by
  split
  · rw [bind_of_ok (removeJob_slot consistent found)]
    rfl
  · rfl

theorem Control.waited_trace (control : Control) (pids : List Int) :
    (control.waited pids).trace = control.trace ++ pids.map .waitpid := rfl

theorem Control.rewritten_trace (control : Control) (index : Nat) (job : Job) :
    (control.rewritten index job).trace =
      control.trace ++ [.table (control.table.write index (some job))] := rfl

theorem Control.assessed_trace (control : Control) (job : Job) :
    (control.assessed job).trace =
      control.trace ++ if isJobFinished job then [.kill (-job.pgid) 0] else [] := by
  unfold Control.assessed
  split
  · rfl
  · exact (List.append_nil _).symm

theorem Control.announced_table (control : Control) (index : Nat) (lastStatus : JobStatus)
    (job : Job) (fd : Int) :
    (control.announced index lastStatus job fd).table =
      if isJobFinished job then control.table.erase index else control.table := by
  unfold Control.announced
  split <;> split <;> rfl

theorem Control.announced_slot {control : Control} {index : Nat} {job : Job}
    (found : control.table.slot index = some job) (lastStatus : JobStatus) (fd : Int) (other : Nat) :
    (control.announced index lastStatus job fd).table.slot other =
      if other = index then if isJobFinished job then none else some job
      else control.table.slot other := by
  rw [Control.announced_table]
  cases isJobFinished job with
  | true =>
      rw [if_pos rfl, if_pos rfl]
      exact JobTable.slot_erase found other
  | false =>
      rw [if_neg Bool.false_ne_true, if_neg Bool.false_ne_true]
      split
      · next here => rw [here, found]
      · rfl

theorem Control.announced_trace (control : Control) (index : Nat) (lastStatus : JobStatus)
    (job : Job) (fd : Int) :
    (control.announced index lastStatus job fd).trace =
      control.trace ++ ((if lastStatus ≠ job.status then [.print fd job.line] else []) ++
        if isJobFinished job then [.table (control.table.erase index)] else []) := by
  unfold Control.announced
  split <;> split <;> simp [Control.store, Control.printed]

theorem fdUpdateJob_absent {environment : Environment} {fd : Int} {index : Nat} {start : Control}
    (free : start.table.slot index = none) :
    fdUpdateJob environment fd index start = .ok () start := by
  rw [fdUpdateJob, bind_of_ok (get_apply start)]
  dsimp only
  rw [free]
  rfl

theorem fdUpdateJob_eq (environment : Environment) (fd : Int) {index : Nat} {start : Control}
    {job : Job} (consistent : start.table.Consistent) (found : start.table.slot index = some job) :
    ∃ all subjobs pids, Waited environment start.calls job.subjobs all subjobs pids ∧
      fdUpdateJob environment fd index start =
        .ok ()
          (if all then
            let job' := ({ job with subjobs } : Job).assessed environment (start.waited pids)
            (((start.waited pids).assessed job').rewritten index job').announced index job.status
              job' fd
          else (start.waited pids).rewritten index { job with subjobs }) := by
  obtain ⟨all, subjobs, pids, waited, waits⟩ := waitForJob_eq environment job start
  refine ⟨all, subjobs, pids, waited, ?_⟩
  rw [fdUpdateJob, bind_of_ok (get_apply start)]
  dsimp only
  rw [found]
  cases all with
  | false =>
      rw [if_neg Bool.false_ne_true] at waits
      dsimp only
      rw [bind_of_ok waits, bind_of_ok (get_apply _), bind_of_ok (setTable_write _ index _)]
      rfl
  | true =>
      rw [if_pos rfl] at waits
      dsimp only
      rw [bind_of_ok waits, bind_of_ok (get_apply _), bind_of_ok (setTable_write _ index _)]
      dsimp only
      rw [if_pos rfl, if_pos rfl]
      generalize changed : ({ job with subjobs } : Job).assessed environment (start.waited pids) =
        job'
      have same : (start.waited pids).assessed { job with subjobs } =
          (start.waited pids).assessed job' := by
        rw [← changed]
        rfl
      rw [same]
      obtain ⟨consistent', found'⟩ := Control.rewritten_slot job'
        (show ((start.waited pids).assessed job').table.Consistent by simpa using consistent)
        (by simpa using found) (by rw [← changed]; rfl)
      unfold Control.announced
      split
      · rw [bind_of_ok (printJob_eq job' fd _)]
        have printed : ((((start.waited pids).assessed job').rewritten index job').printed fd
            job'.line).table.Consistent := consistent'
        exact removeFinished_eq printed found'
      · exact removeFinished_eq consistent' found'

/-! ## A pass over the table -/

def Event.isPrint : Event → Bool
  | .print _ _ => true
  | _ => false

def Event.isWaitpid : Event → Bool
  | .waitpid _ => true
  | _ => false

def Event.sent : Event → Option (Int × Int)
  | .kill target signal => some (target, signal)
  | _ => none

/-- The targets and the signals of the calls of `kill`. -/
def sentSignals (trace : List Event) : List (Int × Int) := trace.filterMap Event.sent

theorem filter_waits (pids : List Int) :
    (pids.map Event.waitpid).filter Event.isWaitpid = pids.map .waitpid := by
  rw [List.filter_eq_self]
  rintro _ member
  obtain ⟨pid, _, rfl⟩ := List.mem_map.mp member
  rfl

theorem filter_prints (pids : List Int) :
    (pids.map Event.waitpid).filter Event.isPrint = [] := by
  rw [List.filter_eq_nil_iff]
  rintro _ member
  obtain ⟨pid, _, rfl⟩ := List.mem_map.mp member
  exact Bool.false_ne_true

/-- What a pass over the table makes of a job, with the events recorded for it: `job'` is
the job after its waits and `slot` its slot after the pass. -/
structure Pass (environment : Environment) (fd : Int) (job job' : Job) (slot : Option Job)
    (events : List Event) : Prop where
  updated : job.Updated job'
  waits : ∃ count all pids, Waited environment count job.subjobs all job'.subjobs pids ∧
    events.filter Event.isWaitpid = pids.map .waitpid
  slot : slot = if isJobFinished job' then none else some job'
  status : isFinishedStatus job.status = false →
    isFinishedStatus job'.status = isJobFinished job'
  printed : events.filter Event.isPrint =
    if job.status ≠ job'.status then [.print fd job'.line] else []

/-- The same for a slot. -/
def Passed (environment : Environment) (fd : Int) (slot slot' : Option Job) (events : List Event) :
    Prop :=
  match slot with
  | none => slot' = none ∧ events = []
  | some job => ∃ job', Pass environment fd job job' slot' events

theorem fdUpdateJob_passed {environment : Environment} {fd : Int} {index : Nat} {start : Control}
    (consistent : start.table.Consistent) :
    ∃ finish events, fdUpdateJob environment fd index start = .ok () finish ∧
      finish.trace = start.trace ++ events ∧
      (∀ other, other ≠ index → finish.table.slot other = start.table.slot other) ∧
      Passed environment fd (start.table.slot index) (finish.table.slot index) events := by
  cases found : start.table.slot index with
  | none =>
      refine ⟨start, [], fdUpdateJob_absent found, (List.append_nil _).symm, fun _ _ => rfl, ?_⟩
      exact ⟨found, rfl⟩
  | some job =>
      obtain ⟨all, subjobs, pids, waited, ran⟩ :=
        fdUpdateJob_eq environment fd consistent found
      have within := JobTable.lt_of_slot found
      cases all with
      | false =>
          rw [if_neg Bool.false_ne_true] at ran
          refine ⟨_, pids.map .waitpid ++ [.table (start.table.write index (some { job with subjobs }))],
            ran, ?_, fun other apart => ?_, { job with subjobs }, ?_⟩
          · rw [Control.rewritten_trace, Control.waited_trace, List.append_assoc]
            rfl
          · exact (start.table.slot_write within _ other).trans (if_neg apart)
          · obtain ⟨subjob, member, alive⟩ := waited.unfinished
            have unfinished : isJobFinished { job with subjobs } = false := by
              apply Bool.eq_false_iff.mpr
              intro finished
              rw [isJobFinished_iff.mp finished _ ⟨subjob, member, rfl⟩] at alive
              cases alive
            constructor
            case updated => exact ⟨rfl, rfl, rfl, waited.updated⟩
            case waits =>
              refine ⟨_, _, _, waited, ?_⟩
              rw [List.filter_append, filter_waits]
              exact List.append_nil _
            case slot =>
              rw [unfinished]
              exact (start.table.slot_write within _ index).trans (if_pos rfl)
            case status => exact fun alive => alive.trans unfinished.symm
            case printed =>
              rw [List.filter_append, filter_prints]
              exact (if_neg (not_not.mpr rfl)).symm
      | true =>
          rw [if_pos rfl] at ran
          generalize changed : ({ job with subjobs } : Job).assessed environment
            (start.waited pids) = job' at ran
          have updated : job.Updated job' := by
            rw [← changed]
            exact ⟨rfl, rfl, rfl, waited.updated⟩
          have status : isFinishedStatus job'.status = isJobFinished job' := by
            rw [← changed]
            exact Job.finished_assessed environment _ _
          have subjobs' : job'.subjobs = subjobs := by rw [← changed]; rfl
          have found' : (((start.waited pids).assessed job').rewritten index job').table.slot index =
              some job' := by
            rw [Control.rewritten, Control.store_table, Control.assessed_table]
            exact JobTable.slot_update found job'
          refine ⟨_, pids.map .waitpid ++ (if isJobFinished job' then [.kill (-job'.pgid) 0] else []) ++
            [.table (start.table.write index (some job'))] ++
            ((if job.status ≠ job'.status then [.print fd job'.line] else []) ++
              if isJobFinished job' then
                [.table ((start.table.write index (some job')).erase index)] else []),
            ran, ?_, fun other apart => ?_, job', ?_⟩
          · rw [Control.announced_trace, Control.rewritten_trace, Control.assessed_trace,
              Control.waited_trace]
            simp only [List.append_assoc, Control.rewritten, Control.store_table,
              Control.assessed_table, Control.waited_table]
          · rw [Control.announced_slot found', if_neg apart, Control.rewritten, Control.store_table,
              Control.assessed_table]
            exact (start.table.slot_write within _ other).trans (if_neg apart)
          · constructor
            case updated => exact updated
            case waits =>
              refine ⟨_, _, _, subjobs' ▸ waited, ?_⟩
              simp only [List.filter_append, filter_waits]
              split <;> split <;> simp [Event.isWaitpid]
            case slot => rw [Control.announced_slot found', if_pos rfl]
            case status => exact fun _ => status
            case printed =>
              simp only [List.filter_append, filter_prints]
              split <;> split <;> simp [Event.isPrint]

theorem fdUpdateJobsFrom_passed {environment : Environment} {fd : Int} {indices : List Nat}
    (distinct : indices.Nodup) : ∀ {start : Control}, start.table.Consistent →
    ∃ (finish : Control) (events : Nat → List Event),
      fdUpdateJobsFrom environment fd indices start = .ok () finish ∧
      finish.trace = start.trace ++ indices.flatMap events ∧
      (∀ other, other ∉ indices → finish.table.slot other = start.table.slot other) ∧
      ∀ index ∈ indices,
        Passed environment fd (start.table.slot index) (finish.table.slot index) (events index) := by
  induction indices with
  | nil =>
      intro start _
      exact ⟨start, fun _ => [], rfl, (List.append_nil _).symm, fun _ _ => rfl, by simp⟩
  | cons index rest ih =>
      intro start consistent
      obtain ⟨fresh, distinct'⟩ := List.nodup_cons.mp distinct
      obtain ⟨middle, first, ran, recorded, kept, passed⟩ := fdUpdateJob_passed consistent
      have moves : Moves (Course fun _ => False) (fdUpdateJob environment fd index) :=
        fdUpdateJob_moves environment fd index
      have consistent' := Course.consistent ((moves start).of_ok ran) consistent
      obtain ⟨finish, later, ran', recorded', kept', passed'⟩ := ih distinct' consistent'
      refine ⟨finish, fun other => if other = index then first else later other, ?_, ?_, ?_, ?_⟩
      · rw [fdUpdateJobsFrom, bind_of_ok ran, ran']
      · have same : rest.flatMap (fun other => if other = index then first else later other) =
            rest.flatMap later := by
          apply List.flatMap_congr
          intro other member
          rw [if_neg]
          rintro rfl
          exact fresh member
        rw [recorded', recorded, List.flatMap_cons, if_pos rfl, same, List.append_assoc]
      · intro other outside
        rw [List.mem_cons, not_or] at outside
        rw [kept' other outside.2, kept other outside.1]
      · intro other member
        dsimp only
        rcases List.mem_cons.mp member with rfl | later'
        · rw [if_pos rfl, kept' other fresh]
          exact passed
        · have apart : other ≠ index := by
            rintro rfl
            exact fresh later'
          rw [if_neg apart, ← kept other apart]
          exact passed' other later'

/-- A pass over the table treats each job by itself. -/
theorem fdUpdateJobs_passed {environment : Environment} {fd : Int} {start : Control}
    (consistent : start.table.Consistent) :
    ∃ (finish : Control) (events : Nat → List Event),
      fdUpdateJobs environment fd start = .ok () finish ∧
      finish.trace = start.trace ++ (List.range start.table.capacity).flatMap events ∧
      ∀ index < start.table.capacity,
        Passed environment fd (start.table.slot index) (finish.table.slot index) (events index) := by
  obtain ⟨finish, events, ran, recorded, _, passed⟩ :=
    fdUpdateJobsFrom_passed (List.nodup_range (n := start.table.capacity)) consistent
  refine ⟨finish, events, ?_, recorded, fun index inside => passed index (List.mem_range.mpr inside)⟩
  rw [fdUpdateJobs, bind_of_ok (get_apply start)]
  exact ran

/-- The jobs a pass leaves in the table are not finished. -/
theorem fdUpdateJobs_remaining {environment : Environment} {fd : Int} {start updated : Control}
    (consistent : start.table.Consistent)
    (update : fdUpdateJobs environment fd start = .ok () updated) {index : Nat} {job' : Job}
    (left : updated.table.slot index = some job') :
    isJobFinished job' = false ∧ ∃ job, start.table.slot index = some job ∧ job.Updated job' := by
  obtain ⟨finish, events, ran, _, passed⟩ := fdUpdateJobs_passed consistent
  rw [update] at ran
  cases ran
  have moves : Moves (Course fun _ => False) (fdUpdateJobs environment fd) :=
    fdUpdateJobs_moves environment fd
  have course : Course (fun _ => False) start updated := (moves start).of_ok update
  have inside : index < start.table.capacity := by
    rw [← course.jobsUpdated.capacity, ← (course.consistent consistent).length]
    exact JobTable.lt_of_slot left
  have pass := passed index inside
  rw [left] at pass
  cases before : start.table.slot index with
  | none =>
      rw [before] at pass
      cases pass.1
  | some job =>
      rw [before] at pass
      obtain ⟨job'', pass⟩ := pass
      have slot := pass.slot
      split at slot
      · cases slot
      · next alive =>
        cases slot
        exact ⟨Bool.not_eq_true _ ▸ alive, job, rfl, pass.updated⟩

/-! ## `put_job_in_foreground` -/

/-- The state after a job that has been in the foreground has been removed if it is
finished, and printed if not. -/
def Control.recovered (control : Control) (index : Nat) (job : Job) : Control :=
  if isJobFinished job then control.store (control.table.erase index)
  else control.printed stderrFileno job.line

theorem Control.recovered_slot {control : Control} {index : Nat} {job : Job}
    (found : control.table.slot index = some job) :
    (control.recovered index job).table.slot index = if isJobFinished job then none else some job := by
  unfold Control.recovered
  split
  · rw [Control.store_table, JobTable.slot_erase found, if_pos rfl]
  · exact found

theorem putJobInForeground_eq (environment : Environment) {index : Nat} {start : Control}
    {job : Job} (consistent : start.table.Consistent) (found : start.table.slot index = some job) :
    ∃ all subjobs pids, Waited environment (start.calls + 2) job.subjobs all subjobs pids ∧
      putJobInForeground environment index start =
        if environment.tcsetpgrp start.calls job.pgid = false then
          .ok false (start.gave job.pgid)
        else
          let called := (start.gave job.pgid).signalled job sigcont
          if (environment.kill (start.calls + 1) (-job.pgid) sigcont).isSome then .ok false called
          else
            let job' := ({ job with subjobs } : Job).assessed environment (called.waited pids)
            if all then
              let ended := (((called.waited pids).assessed job').rewritten index job').recovered
                index job'
              .ok (environment.tcsetpgrp ended.calls environment.shellPgid)
                (ended.gave environment.shellPgid)
            else .ok false ((called.waited pids).rewritten index { job with subjobs }) := by
  obtain ⟨all, subjobs, pids, waited, waits⟩ := blockingWaitForJob_eq environment job
    ((start.gave job.pgid).signalled job sigcont)
  refine ⟨all, subjobs, pids, waited, ?_⟩
  rw [putJobInForeground, bind_of_ok (get_apply start)]
  dsimp only
  rw [found]
  dsimp only
  rw [bind_of_ok (tcsetpgrp_eq environment job.pgid start)]
  cases given : environment.tcsetpgrp start.calls job.pgid with
  | false => rfl
  | true =>
      rw [if_neg (by simp), if_neg (by simp), bind_of_ok (signalJob_eq environment job sigcont _)]
      have next : (start.gave job.pgid).calls = start.calls + 1 := rfl
      rw [next]
      cases sent : (environment.kill (start.calls + 1) (-job.pgid) sigcont).isSome with
      | true =>
          rw [if_pos rfl, if_pos rfl]
          rfl
      | false =>
          rw [if_neg Bool.false_ne_true, if_neg Bool.false_ne_true]
          cases all with
          | false =>
              rw [if_neg Bool.false_ne_true] at waits
              rw [bind_of_ok waits, bind_of_ok (get_apply _), bind_of_ok (setTable_write _ index _)]
              rfl
          | true =>
              rw [if_pos rfl] at waits
              rw [bind_of_ok waits, bind_of_ok (get_apply _), bind_of_ok (setTable_write _ index _)]
              dsimp only
              rw [if_neg (chiefExitStatus_ne environment _ job.subjobs), if_pos rfl]
              generalize changed : ({ job with subjobs } : Job).assessed environment
                (((start.gave job.pgid).signalled job sigcont).waited pids) = job'
              have same : (((start.gave job.pgid).signalled job sigcont).waited pids).assessed
                  { job with subjobs } =
                    (((start.gave job.pgid).signalled job sigcont).waited pids).assessed job' := by
                rw [← changed]
                rfl
              rw [same]
              obtain ⟨consistent', found'⟩ := Control.rewritten_slot job'
                (show ((((start.gave job.pgid).signalled job sigcont).waited pids).assessed
                  job').table.Consistent by simpa using consistent)
                (by simpa using found) (by rw [← changed]; rfl)
              unfold Control.recovered
              split
              · rw [bind_of_ok (removeJob_slot consistent' found')]
                rfl
              · rw [bind_of_ok (printJob_eq job' stderrFileno _)]
                rfl

end Jsh
