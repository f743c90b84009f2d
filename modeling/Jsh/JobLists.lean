import Jsh.Library.Repeats
import Jsh.Numbers

/-!
# Lists of jobs

The lines that `jobs` prints for the jobs of the table, with what `waitpid` reports about
them in its update.
-/

set_option autoImplicit false

namespace Jsh

open Library

/-! ## What `waitpid` reports -/

/-- A job with what has been reported about its subjobs, if all waits have succeeded
before the system call number `count`. -/
def Job.reported (environment : Environment) (count : Nat) (job : Job)
    (subjobs : List (Option Subjob)) : Job :=
  let found := (environment.kill count (-job.pgid) 0).isNone
  { job with subjobs, status := ({ job with subjobs } : Job).derivedStatus found }

/-- What the waits for a job report from the system call number `count` on: the job after
them, and the number of the next system call. A failure leaves the status as it is. -/
inductive JobReported (environment : Environment) (count : Nat) (job : Job) :
    Job → Nat → Prop where
  | all {subjobs : List (Option Subjob)} {pids : List Int} :
      Waited environment count job.subjobs true subjobs pids →
      JobReported environment count job
        (job.reported environment (count + pids.length) subjobs)
        (count + pids.length + if isJobFinished { job with subjobs } then 1 else 0)
  | failed {subjobs : List (Option Subjob)} {pids : List Int} :
      Waited environment count job.subjobs false subjobs pids →
      JobReported environment count job { job with subjobs } (count + pids.length)

/-- The jobs of the slots before and after the waits for them. -/
inductive JobsReported (environment : Environment) :
    Nat → List (Option Job) → List (Job × Job) → Prop where
  | nil {count : Nat} : JobsReported environment count [] []
  | empty {count : Nat} {slots : List (Option Job)} {reports : List (Job × Job)} :
      JobsReported environment count slots reports →
      JobsReported environment count (none :: slots) reports
  | job {count next : Nat} {job job' : Job} {slots : List (Option Job)}
      {reports : List (Job × Job)} :
      JobReported environment count job job' next → JobsReported environment next slots reports →
      JobsReported environment count (some job :: slots) ((job, job') :: reports)

theorem JobReported.id {environment : Environment} {count next : Nat} {job job' : Job}
    (reported : JobReported environment count job job' next) : job'.id = job.id := by
  cases reported <;> rfl

theorem JobsReported.ids {environment : Environment} {count : Nat} {slots : List (Option Job)}
    {reports : List (Job × Job)} (reported : JobsReported environment count slots reports) :
    (∀ report ∈ reports, report.2.id = report.1.id) ∧
      reports.map (·.1) = slots.reduceOption := by
  induction reported with
  | nil => exact ⟨by simp, rfl⟩
  | empty _ ih => exact ih
  | job first _ ih =>
      constructor
      · intro report member
        cases List.mem_cons.mp member with
        | inl same => exact same ▸ first.id
        | inr later => exact ih.1 report later
      · rw [List.map_cons, List.reduceOption_cons_of_some, ih.2]

theorem JobsReported.of_empty {environment : Environment} {count number : Nat}
    {reports : List (Job × Job)}
    (reported : JobsReported environment count (List.replicate number none) reports) :
    reports = [] := by
  induction number with
  | zero => cases reported; rfl
  | succ number ih =>
      rw [List.replicate_succ] at reported
      cases reported with
      | empty reported => exact ih reported

/-! ## Lines on a descriptor -/

def Event.lineOn (fd : Int) : Event → Option CString
  | .print fd' text => if fd' = fd then some text else none
  | _ => none

/-- The lines printed on a descriptor. -/
def linesOn (fd : Int) (trace : List Event) : List CString := trace.filterMap (Event.lineOn fd)

@[simp] theorem linesOn_append (fd : Int) (before after : List Event) :
    linesOn fd (before ++ after) = linesOn fd before ++ linesOn fd after :=
  List.filterMap_append

@[simp] theorem linesOn_nil (fd : Int) : linesOn fd [] = [] := rfl

@[simp] theorem linesOn_cons (fd : Int) (event : Event) (trace : List Event) :
    linesOn fd (event :: trace) = (event.lineOn fd).toList ++ linesOn fd trace := by
  cases line : event.lineOn fd <;> simp [linesOn, line]

@[simp] theorem lineOn_print (fd : Int) (text : CString) :
    Event.lineOn fd (.print fd text) = some text := if_pos rfl

@[simp] theorem lineOn_table (fd : Int) (table : JobTable) :
    Event.lineOn fd (.table table) = none := rfl

@[simp] theorem lineOn_kill (fd target signal : Int) :
    Event.lineOn fd (.kill target signal) = none := rfl

@[simp] theorem linesOn_waits (fd : Int) (pids : List Int) :
    linesOn fd (pids.map .waitpid) = [] := by
  simp [linesOn, Event.lineOn]

/-- Only null signals have been sent, which test whether a process exists. -/
def Probes (start finish : Control) : Prop :=
  ∃ probes, sentSignals finish.trace = sentSignals start.trace ++ probes ∧
    ∀ probe ∈ probes, probe.2 = 0

theorem Probes.of_same {start finish : Control}
    (same : sentSignals finish.trace = sentSignals start.trace) : Probes start finish :=
  ⟨[], by rw [same, List.append_nil], fun _ impossible => by cases impossible⟩

theorem Probes.trans {start middle finish : Control} (before : Probes start middle)
    (after : Probes middle finish) : Probes start finish := by
  obtain ⟨probes, sent, null⟩ := before
  obtain ⟨probes', sent', null'⟩ := after
  refine ⟨probes ++ probes', by rw [sent', sent, List.append_assoc], fun probe member => ?_⟩
  exact (List.mem_append.mp member).elim (null probe) (null' probe)

theorem sentSignals_append (before after : List Event) :
    sentSignals (before ++ after) = sentSignals before ++ sentSignals after :=
  List.filterMap_append

theorem sentSignals_waits (pids : List Int) : sentSignals (pids.map .waitpid) = [] := by
  simp [sentSignals, Event.sent]

/-- The lines the update prints for a job. -/
def updateLines (report : Job × Job) : List CString :=
  List.replicate (decide (report.1.status ≠ report.2.status)).toNat report.2.line

/-- What is left of a job in its slot. -/
def Job.remaining (job : Job) : Option Job := if isJobFinished job then none else some job

theorem Job.reported_eq (environment : Environment) (control : Control) (job : Job)
    (subjobs : List (Option Subjob)) (pids : List Int) :
    ({ job with subjobs } : Job).assessed environment (control.waited pids) =
      job.reported environment (control.calls + pids.length) subjobs := rfl

theorem Control.announced_calls (control : Control) (index : Nat) (lastStatus : JobStatus)
    (job : Job) (fd : Int) : (control.announced index lastStatus job fd).calls = control.calls := by
  unfold Control.announced
  split <;> split <;> rfl

theorem Control.recovered_calls (control : Control) (index : Nat) (job : Job) :
    (control.recovered index job).calls = control.calls := by
  unfold Control.recovered
  split <;> rfl

theorem Control.assessed_calls (control : Control) (job : Job) :
    (control.assessed job).calls = control.calls + if isJobFinished job then 1 else 0 := by
  unfold Control.assessed
  split <;> rfl

/-- The update of one slot. -/
theorem fdUpdateJob_reported {environment : Environment} (fd : Int) {index : Nat}
    {start : Control} {job : Job} (consistent : start.table.Consistent)
    (found : start.table.slot index = some job) :
    ∃ finish job', JobReported environment start.calls job job' finish.calls ∧
      fdUpdateJob environment fd index start = .ok () finish ∧
      finish.table.slots = start.table.slots.set index job'.remaining ∧
      linesOn fd finish.trace = linesOn fd start.trace ++ updateLines (job, job') ∧
      Probes start finish := by
  obtain ⟨all, subjobs, pids, waited, ran⟩ := fdUpdateJob_eq environment fd consistent found
  cases all with
  | false =>
      rw [if_neg Bool.false_ne_true] at ran
      have alive : isJobFinished { job with subjobs } = false := by
        obtain ⟨subjob, member, alive⟩ := waited.unfinished
        apply Bool.eq_false_iff.mpr
        intro finished
        rw [isJobFinished_iff.mp finished _ ⟨subjob, member, rfl⟩] at alive
        cases alive
      refine ⟨_, { job with subjobs }, .failed waited, ran, ?_, ?_, .of_same ?_⟩
      · rw [Job.remaining, alive]
        rfl
      · simp [Control.rewritten_trace, Control.waited_trace, updateLines]
      · rw [Control.rewritten_trace, Control.waited_trace, sentSignals_append, sentSignals_append,
          sentSignals_waits, List.append_nil]
        exact List.append_nil _
  | true =>
      rw [if_pos rfl] at ran
      dsimp only at ran
      rw [Job.reported_eq] at ran
      have reported := JobReported.all waited
      generalize changed : job.reported environment (start.calls + pids.length) subjobs = job'
        at ran reported
      have same : isJobFinished job' = isJobFinished { job with subjobs } := by
        rw [← changed]
        rfl
      refine ⟨_, job', ?_, ran, ?_, ?_,
        if isJobFinished job' then [(-job'.pgid, 0)] else [], ?_, ?_⟩
      · rw [Control.announced_calls]
        change JobReported environment start.calls job job'
          ((start.waited pids).assessed job').calls
        rw [Control.assessed_calls, same]
        exact reported
      · rw [Control.announced_table, Job.remaining]
        cases isJobFinished job' with
        | true => simp [Control.rewritten, JobTable.erase, JobTable.write]
        | false => simp [Control.rewritten, JobTable.write]
      · rw [Control.announced_trace, Control.rewritten_trace, Control.assessed_trace,
          Control.waited_trace, updateLines]
        cases isJobFinished job' <;> by_cases changed : job.status = job'.status <;> simp [changed]
      · rw [Control.announced_trace, Control.rewritten_trace, Control.assessed_trace,
          Control.waited_trace]
        simp only [sentSignals_append, sentSignals_waits, List.append_assoc]
        split <;> split <;> simp [sentSignals, Event.sent]
      · split <;> simp

/-- The update of the slots from `front` on. -/
theorem fdUpdateJobsFrom_reported {environment : Environment} (fd : Int)
    {slots : List (Option Job)} : ∀ {front : List (Option Job)} {start : Control},
    start.table.Consistent → start.table.slots = front ++ slots →
    ∃ finish reports after, JobsReported environment start.calls slots reports ∧
      fdUpdateJobsFrom environment fd (List.range' front.length slots.length) start =
        .ok () finish ∧
      finish.table.slots = front ++ after ∧
      after.reduceOption = reports.filterMap (·.2.remaining) ∧
      linesOn fd finish.trace = linesOn fd start.trace ++ reports.flatMap updateLines ∧
      Probes start finish := by
  induction slots with
  | nil =>
      intro front start _ split
      exact ⟨start, [], [], .nil, rfl, split, rfl, (List.append_nil _).symm, .of_same rfl⟩
  | cons slot slots ih =>
      intro front start consistent split
      have here : start.table.slot front.length = slot := by
        rw [JobTable.slot, split]
        simp
      rw [List.length_cons, List.range'_succ, fdUpdateJobsFrom]
      cases slot with
      | none =>
          have split' : start.table.slots = (front ++ [none]) ++ slots := by rw [split]; simp
          obtain ⟨finish, reports, after, reported, ran, kept, rest⟩ := ih consistent split'
          rw [List.length_append, List.length_singleton] at ran
          refine ⟨finish, reports, none :: after, .empty reported, ?_, ?_, rest⟩
          · rw [bind_of_ok (fdUpdateJob_absent here), ran]
          · rw [kept]
            simp
      | some job =>
          obtain ⟨middle, job', first, ran, changed, line, probes⟩ :=
            fdUpdateJob_reported fd consistent here
          have moves : Moves (Course fun _ => False) (fdUpdateJob environment fd front.length) :=
            fdUpdateJob_moves environment fd front.length
          have consistent' := Course.consistent ((moves start).of_ok ran) consistent
          have split' : middle.table.slots = (front ++ [job'.remaining]) ++ slots := by
            rw [changed, split]
            simp
          obtain ⟨finish, reports, after, reported, ran', kept, left, lines, probes'⟩ :=
            ih consistent' split'
          rw [List.length_append, List.length_singleton] at ran'
          refine ⟨finish, (job, job') :: reports, job'.remaining :: after, .job first reported,
            ?_, ?_, ?_, ?_, probes.trans probes'⟩
          · rw [bind_of_ok ran, ran']
          · rw [kept]
            simp
          · cases rest : job'.remaining with
            | none => simpa [rest] using left
            | some other => simpa [rest, List.reduceOption_cons_of_some] using left
          · rw [lines, line, List.flatMap_cons, List.append_assoc]

theorem fdUpdateJobs_reported {environment : Environment} (fd : Int) {start : Control}
    (consistent : start.table.Consistent) :
    ∃ finish reports, JobsReported environment start.calls start.table.slots reports ∧
      fdUpdateJobs environment fd start = .ok () finish ∧
      finish.table.jobs = reports.filterMap (·.2.remaining) ∧
      linesOn fd finish.trace = linesOn fd start.trace ++ reports.flatMap updateLines ∧
      Probes start finish := by
  obtain ⟨finish, reports, after, reported, ran, kept, left, printed⟩ :=
    @fdUpdateJobsFrom_reported environment fd start.table.slots [] start consistent rfl
  refine ⟨finish, reports, reported, ?_, ?_, printed⟩
  · rw [fdUpdateJobs, bind_of_ok (get_apply start), List.range_eq_range', ← consistent.length]
    exact ran
  · rw [JobTable.jobs, kept, List.nil_append, left]

/-! ## The final list -/

theorem printJobs_lines (environment : Environment) (fd : Int) (jobs : List Job)
    (start : Control) :
    ∃ finish, printJobs environment false fd jobs start = .ok () finish ∧
      Prints fd (jobs.map Job.line) start finish := by
  induction jobs generalizing start with
  | nil => exact ⟨start, rfl, rfl, (List.append_nil _).symm⟩
  | cons job jobs ih =>
      obtain ⟨finish, ran, prints⟩ := ih (start.printed fd job.line)
      refine ⟨finish, ?_, (dprintf_prints fd job.line start).2.append prints⟩
      rw [printJobs, if_neg Bool.false_ne_true, bind_of_ok (printJob_eq job fd start)]
      exact ran

theorem Prints.lines {fd : Int} {lines : List CString} {start finish : Control}
    (prints : Prints fd lines start finish) :
    linesOn fd finish.trace = linesOn fd start.trace ++ lines := by
  have own : ∀ lines : List CString, linesOn fd (lines.map (.print fd)) = lines := by
    intro lines
    induction lines with
    | nil => rfl
    | cons line lines ih => simpa using ih
  rw [prints.trace, linesOn_append, own]

/-- The number that a call of `jobs` without options names. -/
inductive JobsCall (call : CommandCall) : Option Nat → Prop where
  | all : call.argc = 1 → JobsCall call none
  | named {text : CString} {number : Nat} : call.argc = 2 →
      call.argv.getD 1 [] = '%' :: text → WrittenInteger text number → JobsCall call (some number)

/-- Whether a call is about the job with this id. -/
def selects (named : Option Nat) (id : Nat) : Bool := named.all (· == id)

theorem jobsCommand_call {call : CommandCall} {named : Option Nat} (shape : JobsCall call named)
    (environment : Environment) :
    jobsCommand environment call = (fdUpdateJobs environment call.stdout >>= fun _ =>
      printSelectedJobs environment call false 1) := by
  unfold jobsCommand
  cases shape with
  | all bare =>
      rw [if_neg (by omega), if_neg (by omega), if_neg (by omega)]
  | named two argument _ =>
      rw [if_neg (by omega), if_neg (by rw [argument]; simp), if_neg (by omega)]

theorem Job.line_id {job job' : Job} (same : job.line = job'.line) : job.id = job'.id := by
  have digits : ∀ job : Job, (job.line.drop 1).takeWhile (·.isDigit) = decimal (job.id : Int) := by
    intro job
    have all : ∀ char ∈ decimal (job.id : Int), char.isDigit = true := fun _ member =>
      Nat.isDigit_of_mem_toDigits (by decide) (by decide) member
    have shape : job.line.drop 1 = decimal (job.id : Int) ++ ']' :: ("\t".toList ++
        decimal job.pgid ++ "\t".toList ++ jobStatusToString job.status ++ "\t".toList ++
        job.commandString ++ "\n".toList) := by
      simp [Job.line]
    rw [shape, List.takeWhile_append_of_pos all]
    simp
  have read := congrArg strtoimax (digits job)
  rw [same, digits job', strtoimax_decimal, strtoimax_decimal] at read
  exact Int.natCast_inj.mp (congrArg Prod.fst read).symm

theorem not_isMessage_line (job : Job) : ¬ IsMessage job.line := by
  simp [IsMessage, Job.line]

theorem JobTable.Consistent.ids_nodup {table : JobTable} (consistent : table.Consistent) :
    (table.jobs.map (·.id)).Nodup := by
  rw [JobTable.jobs, List.reduceOption, List.Nodup, List.pairwise_map, List.pairwise_filterMap,
    List.pairwise_iff_getElem]
  intro index other inside inside' before job found job' found' same
  have entry := (List.getElem?_eq_getElem inside).trans (congrArg some found)
  have entry' := (List.getElem?_eq_getElem inside').trans (congrArg some found')
  have own := consistent.ids index job (JobTable.slot_eq_some.mpr entry)
  have own' := consistent.ids other job' (JobTable.slot_eq_some.mpr entry')
  omega

theorem filter_id {jobs : List Job} (distinct : (jobs.map (·.id)).Nodup) {job : Job}
    (member : job ∈ jobs) : jobs.filter (fun other => job.id == other.id) = [job] := by
  induction jobs with
  | nil => cases member
  | cons first jobs ih =>
      obtain ⟨fresh, distinct⟩ := List.nodup_cons.mp distinct
      cases List.mem_cons.mp member with
      | inl same =>
          subst same
          have none : jobs.filter (fun other => job.id == other.id) = [] := by
            rw [List.filter_eq_nil_iff]
            intro other inside same
            exact fresh (List.mem_map.mpr ⟨other, inside, (beq_iff_eq.mp same).symm⟩)
          simp [none]
      | inr later =>
          have apart : job.id ≠ first.id := by
            intro same
            exact fresh (List.mem_map.mpr ⟨job, later, same⟩)
          rw [List.filter_cons_of_neg (by simpa using apart), ih distinct later]

theorem exists_slot_of_mem {table : JobTable} {job : Job} (member : job ∈ table.jobs) :
    ∃ index, table.slot index = some job := by
  obtain ⟨index, entry⟩ := List.mem_iff_getElem?.mp (JobTable.mem_jobs.mp member)
  exact ⟨index, JobTable.slot_eq_some.mpr entry⟩

theorem namesJob_of_mem {table : JobTable} (consistent : table.Consistent) {job : Job}
    (member : job ∈ table.jobs) {text : CString} (written : WrittenInteger text job.id) :
    ∃ index, NamesJob table ('%' :: text) index job := by
  obtain ⟨index, slot⟩ := exists_slot_of_mem member
  have own := consistent.ids index job slot
  have used : table.InUse (index + 1) := ⟨Nat.succ_pos index, by simp [slot]⟩
  obtain ⟨_, within, positive⟩ := consistent.bounds used
  have bounded := consistent.bounded
  rw [own] at written
  exact ⟨index, .mk written (by unfold intmaxMax; omega) (by omega) positive slot⟩

/-- The jobs that a call lists after its update. -/
def listedJobs (named : Option Nat) (jobs : List Job) : List Job :=
  jobs.filter fun job => selects named job.id

/-- The end of `jobs`, after its update: the selected jobs are listed, or a message says
that there is no such job. -/
theorem printSelectedJobs_lines {call : CommandCall} {named : Option Nat}
    (shape : JobsCall call named) (environment : Environment) {start : Control}
    (consistent : start.table.Consistent) :
    ∃ value finish, printSelectedJobs environment call false 1 start = .ok value finish ∧
      (Prints call.stdout ((listedJobs named start.table.jobs).map Job.line) start finish ∧
          (named = none ∨ ∃ job ∈ start.table.jobs, named = some job.id) ∨
        (∀ job ∈ start.table.jobs, named ≠ some job.id) ∧ named ≠ none ∧
          ∃ message, IsMessage message ∧ Prints call.stderr [message] start finish) := by
  unfold printSelectedJobs
  dsimp only
  cases shape with
  | all bare =>
      obtain ⟨finish, ran, prints⟩ := printJobs_lines environment call.stdout start.table.jobs start
      refine ⟨0, finish, ?_, .inl ⟨?_, .inl rfl⟩⟩
      · rw [if_neg (by omega), bind_of_ok (get_apply start), bind_of_ok ran]
        rfl
      · have all : listedJobs none start.table.jobs = start.table.jobs :=
          List.filter_eq_self.mpr fun _ _ => rfl
        rwa [all]
  | @named text number two argument written =>
      rw [if_pos ⟨by omega, by rw [argument]; rfl⟩, argument]
      cases getJob_cases ('%' :: text) call.stderr start with
      | inl found =>
          obtain ⟨index, job, names, ran⟩ := found
          cases names with
          | mk written' _ _ _ slot =>
              have same := written.unique written'
              have own := consistent.ids index job slot
              have number_id : number = job.id := by omega
              subst number_id
              have member := JobTable.mem_jobs_of_slot slot
              refine ⟨0, start.printed call.stdout job.line, ?_,
                .inl ⟨?_, .inr ⟨job, member, rfl⟩⟩⟩
              · rw [bind_of_ok ran]
                dsimp only
                rw [bind_of_ok (get_apply start), slot]
                rfl
              · have one : listedJobs (some job.id) start.table.jobs = [job] :=
                  filter_id consistent.ids_nodup member
                rw [one]
                exact (dprintf_prints call.stdout job.line start).2
      | inr refused =>
          obtain ⟨none, message, plain, ran⟩ := refused
          refine ⟨1, _, bind_of_ok ran, .inr ⟨?_, by simp, message, plain,
            (dprintf_prints call.stderr message start).2⟩⟩
          rintro job member ⟨⟩
          obtain ⟨index, names⟩ := namesJob_of_mem consistent member written
          exact none index job names

/-! ## `jobs` -/

/-- Between `start` and `finish` exactly one line has been written on the standard output
for each job the call is about, with its status after the update, and nothing else. -/
def ListsJobs (call : CommandCall) (named : Option Nat) (reports : List (Job × Job))
    (start finish : Control) : Prop :=
  ∃ lines, linesOn call.stdout finish.trace = linesOn call.stdout start.trace ++ lines ∧
    lines.Perm ((reports.filter fun report => selects named report.1.id).map (·.2.line))

/-- The update prints the line of the job if and only if the list does not, or neither
does if the call is not about the job. -/
def PrintedOnce (named : Option Nat) (report : Job × Job) : Prop :=
  if selects named report.1.id = true then
    (isJobFinished report.2 = true ↔ report.1.status ≠ report.2.status)
  else report.1.status = report.2.status

/-- If there is a number, its job stays in the table, or the message about it does not go
to the standard output. -/
def MessageApart (call : CommandCall) (named : Option Nat) (reports : List (Job × Job)) : Prop :=
  named = none ∨ (∃ report ∈ reports, named = some report.1.id ∧ isJobFinished report.2 = false) ∨
    call.stderr ≠ call.stdout

theorem linesOn_other {fd fd' : Int} {lines : List CString} {start finish : Control}
    (prints : Prints fd' lines start finish) (apart : fd' ≠ fd) :
    linesOn fd finish.trace = linesOn fd start.trace := by
  have none : ∀ lines : List CString, linesOn fd (lines.map (.print fd')) = [] := by
    intro lines
    simp [linesOn, Event.lineOn, apart]
  rw [prints.trace, linesOn_append, none, List.append_nil]

/-- What the update and the list print together. -/
theorem printed_repeats (named : Option Nat) (reports : List (Job × Job)) :
    (reports.flatMap updateLines ++
        (listedJobs named (reports.filterMap (·.2.remaining))).map Job.line).Perm
      (repeats (·.2.line) (fun report => (decide (report.1.status ≠ report.2.status)).toNat +
        (selects named report.2.id && !isJobFinished report.2).toNat) reports) := by
  have listed : (listedJobs named (reports.filterMap (·.2.remaining))).map Job.line =
      repeats (·.2.line)
        (fun report => (selects named report.2.id && !isJobFinished report.2).toNat) reports := by
    rw [← map_filter_eq_repeats]
    induction reports with
    | nil => rfl
    | cons report reports ih =>
        cases finished : isJobFinished report.2 <;> cases chosen : selects named report.2.id <;>
          simp_all [listedJobs, Job.remaining]
  rw [listed]
  exact repeats_append_perm reports

theorem printed_perm_iff {environment : Environment} {count : Nat} {table : JobTable}
    (consistent : table.Consistent) {reports : List (Job × Job)}
    (reported : JobsReported environment count table.slots reports) (named : Option Nat) :
    (reports.flatMap updateLines ++
        (listedJobs named (reports.filterMap (·.2.remaining))).map Job.line).Perm
      ((reports.filter fun report => selects named report.1.id).map (·.2.line)) ↔
      ∀ report ∈ reports, PrintedOnce named report := by
  obtain ⟨same, before⟩ := reported.ids
  have distinct : (reports.map (·.2.line)).Nodup := by
    have ids := consistent.ids_nodup
    rw [JobTable.jobs, ← before, List.map_map, List.Nodup, List.pairwise_map] at ids
    rw [List.Nodup, List.pairwise_map]
    refine ids.imp_of_mem fun {report other} member member' apart lines => apart ?_
    exact (same report member).symm.trans ((Job.line_id lines).trans (same other member'))
  rw [map_filter_eq_repeats, (printed_repeats named reports).congr_left, repeats_perm_iff distinct]
  refine forall₂_congr fun report member => ?_
  rw [PrintedOnce, same report member]
  cases selects named report.1.id <;> cases isJobFinished report.2 <;>
    by_cases changed : report.1.status = report.2.status <;> simp [changed]

theorem mem_remaining {reports : List (Job × Job)} {job : Job} :
    job ∈ reports.filterMap (·.2.remaining) ↔
      ∃ report ∈ reports, report.2 = job ∧ isJobFinished report.2 = false := by
  rw [List.mem_filterMap]
  refine exists_congr fun report => and_congr_right fun _ => ?_
  unfold Job.remaining
  cases finished : isJobFinished report.2 <;> simp

/-- `jobs` and `jobs %n` list the jobs they are about exactly if the update prints only
those of them that are finished. -/
theorem jobsCommand_lists_iff (environment : Environment) {call : CommandCall}
    {named : Option Nat} (shape : JobsCall call named) {start : Control}
    (consistent : start.table.Consistent) :
    ∃ value finish reports, jobsCommand environment call start = .ok value finish ∧
      JobsReported environment start.calls start.table.slots reports ∧
      (ListsJobs call named reports start finish ↔
        (∀ report ∈ reports, PrintedOnce named report) ∧ MessageApart call named reports) := by
  obtain ⟨updated, reports, reported, update, left, lines, _⟩ :=
    fdUpdateJobs_reported call.stdout consistent
  have moves : Moves (Course fun _ => False) (fdUpdateJobs environment call.stdout) :=
    fdUpdateJobs_moves environment call.stdout
  have consistent' := Course.consistent ((moves start).of_ok update) consistent
  obtain ⟨value, finish, ran, printed⟩ :=
    printSelectedJobs_lines shape environment consistent'
  refine ⟨value, finish, reports, ?_, reported, ?_⟩
  · rw [jobsCommand_call shape, bind_of_ok update, ran]
  · have own := printed_perm_iff consistent reported named
    rw [left] at printed
    unfold ListsJobs
    cases printed with
    | inl listed =>
        obtain ⟨prints, present⟩ := listed
        have apart : MessageApart call named reports := by
          cases present with
          | inl all => exact .inl all
          | inr present =>
              obtain ⟨job, member, rfl⟩ := present
              obtain ⟨report, inside, rfl, alive⟩ := mem_remaining.mp member
              exact .inr (.inl ⟨report, inside, by rw [reported.ids.1 report inside], alive⟩)
        have output := prints.lines
        rw [lines, List.append_assoc] at output
        rw [and_iff_left apart, ← own, output]
        simp
    | inr missing =>
        obtain ⟨absent, number, message, plain, prints⟩ := missing
        by_cases apart : call.stderr = call.stdout
        · -- the message stands among the lines
          have output := (apart ▸ prints).lines
          rw [lines, List.append_assoc] at output
          rw [output]
          constructor
          · rintro ⟨all, same, perm⟩
            cases List.append_cancel_left same
            have member := perm.subset (List.mem_append_right _ (.head _))
            obtain ⟨report, _, line⟩ := List.mem_map.mp member
            exact absurd (line ▸ plain) (not_isMessage_line report.2)
          · rintro ⟨_, all | ⟨report, member, same, alive⟩ | other⟩
            · exact absurd all number
            · refine absurd same (reported.ids.1 report member ▸ ?_)
              exact absent report.2 (mem_remaining.mpr ⟨report, member, rfl, alive⟩)
            · exact absurd apart other
        · have none : listedJobs named (reports.filterMap (·.2.remaining)) = [] := by
            rw [listedJobs, List.filter_eq_nil_iff]
            intro job member chosen
            cases named with
            | none => exact number rfl
            | some id => exact absent job member (congrArg some (beq_iff_eq.mp chosen))
          have output := linesOn_other prints apart
          rw [lines] at output
          rw [none, List.map_nil, List.append_nil] at own
          rw [and_iff_left (show MessageApart call named reports from .inr (.inr apart)), ← own,
            output]
          simp

/-- The job of `sleep 5 &`. -/
def sleepJob : Job :=
  { newJob 1 "sleep 5".toList with
    id := 1, pgid := 2
    subjobs := [some (newSubjob (newCommandCall ["sleep".toList, "5".toList] "sleep 5".toList) 2
      .running)] }

/-- A shell with this job in its table. -/
def sleepingJobs : Control := { startedJobs with table := initJobTable.insert 0 sleepJob }

/-- The command `jobs`. -/
def jobsCall : CommandCall := newCommandCall ["jobs".toList] "jobs".toList

theorem sleeping_job_listed :
    ∃ value finish reports, jobsCommand .sleeping jobsCall sleepingJobs = .ok value finish ∧
      reports.length = 1 ∧ ListsJobs jobsCall none reports sleepingJobs finish := by
  have consistent : sleepingJobs.table.Consistent :=
    consistent_initJobTable.insert (by decide) rfl sleepJob
  obtain ⟨value, finish, reports, ran, reported, lists⟩ :=
    jobsCommand_lists_iff .sleeping (.all rfl : JobsCall jobsCall none) consistent
  have slots : sleepingJobs.table.slots = some sleepJob :: List.replicate 63 none := rfl
  rw [slots] at reported
  cases reported with
  | job first others =>
      cases others.of_empty
      refine ⟨value, finish, _, ran, rfl, lists.mpr ⟨fun report member => ?_, .inl rfl⟩⟩
      cases List.mem_singleton.mp member
      cases first with
      | all waited =>
        cases waited with
        | waited alive answer rest =>
          cases answer
          cases rest
          unfold PrintedOnce
          decide
        | finished past => cases past
      | failed waited =>
        cases waited with
        | waited alive answer rest => cases rest
        | failed _ response => cases response
        | finished past => cases past

/-- The job once its process has been stopped. -/
def stoppedJob : Job :=
  { sleepJob with
    status := .stopped
    subjobs := [some (newSubjob (newCommandCall ["sleep".toList, "5".toList] "sleep 5".toList) 2
      .stopped)] }

/-- The update prints the job because it has been stopped, and then it is listed. -/
theorem stopped_job_listed_twice :
    ∃ finish, jobsCommand (.stopping true) jobsCall sleepingJobs = .ok 0 finish ∧
      finish.table.jobs = [stoppedJob] ∧
      linesOn stdoutFileno finish.trace = [stoppedJob.line, stoppedJob.line] := by
  have runs : returns (fun value (state : Control) =>
      decide (value = 0 ∧ state.table.jobs = [stoppedJob] ∧
        linesOn stdoutFileno state.trace = [stoppedJob.line, stoppedJob.line]))
      (jobsCommand (.stopping true) jobsCall sleepingJobs) = true := by decide +kernel
  obtain ⟨value, finish, ran, shape⟩ := exists_of_returns runs
  obtain ⟨rfl, jobs, lines⟩ := of_decide_eq_true shape
  exact ⟨finish, ran, jobs, lines⟩

end Jsh
