import Jsh.Foreground
import Jsh.Runs

/-!
# The end of a job

When the shell announces that a job has ended, and which processes it waits for, in
every run.
-/

set_option autoImplicit false

namespace Jsh

open Library

/-! ## What a trace says about the jobs -/

def Event.tableFrom (table : JobTable) : Event → JobTable
  | .table written => written
  | _ => table

/-- The job table after these events, in a shell that starts. -/
def tableAfter (trace : List Event) : JobTable := trace.foldl Event.tableFrom initJobTable

def Event.launchedFrom (pids : List Int) : Event → List Int
  | .command _ _ => []
  | .child forked => pids ++ [forked.pid]
  | _ => pids

/-- The processes forked for the command that is being executed after these events. -/
def launchedAfter (trace : List Event) : List Int := trace.foldl Event.launchedFrom []

@[simp] theorem tableAfter_snoc (trace : List Event) (event : Event) :
    tableAfter (trace ++ [event]) = event.tableFrom (tableAfter trace) := by
  simp [tableAfter]

@[simp] theorem launchedAfter_snoc (trace : List Event) (event : Event) :
    launchedAfter (trace ++ [event]) = event.launchedFrom (launchedAfter trace) := by
  simp [launchedAfter]

/-- Every job in the table is running or stopped. -/
def JobTable.Settled (table : JobTable) : Prop :=
  ∀ index job, table.slot index = some job → isFinishedStatus job.status = false

/-- What one write to the table may do to a slot. -/
inductive SlotWritten : Option Job → Option Job → Prop
  | kept (slot : Option Job) : SlotWritten slot slot
  | entered {job : Job} : isFinishedStatus job.status = false → SlotWritten none (some job)
  | updated {job job' : Job} : job.Updated job' → SlotWritten (some job) (some job')
  | removed {job : Job} : isJobFinished job = true → isFinishedStatus job.status = true →
      SlotWritten (some job) none

/-- A process is waited for because it is the next one not recorded as finished of a job
in the table, or the next one launched for the command that is being executed. -/
inductive WaitedNext (before : List Event) (pid : Int) : Prop
  | job {opening : List Event} {pids : List Int} {index : Nat} {job : Job} :
      before = opening ++ pids.map .waitpid → (tableAfter opening).slot index = some job →
      pids ++ [pid] <+: (unfinished job.subjobs).map (·.pid) → WaitedNext before pid
  | launched {opening : List Event} {pids : List Int} :
      before = opening ++ pids.map .waitpid → pids ++ [pid] <+: launchedAfter opening →
      WaitedNext before pid

/-- What the event may be after those before it. Once a job is recorded as finished it is
announced at most, and removed. -/
def Event.Right (before : List Event) : Event → Prop
  | .table written =>
      (∀ index, SlotWritten ((tableAfter before).slot index) (written.slot index)) ∧
        ∀ index job, (tableAfter before).slot index = some job →
          isFinishedStatus job.status = true → written = (tableAfter before).erase index
  | .print _ text =>
      ∀ index job, (tableAfter before).slot index = some job →
        isFinishedStatus job.status = true →
          text = job.line ∧ before.getLast? = some (.table (tableAfter before))
  | .waitpid pid => (tableAfter before).Settled ∧ WaitedNext before pid
  | _ => (tableAfter before).Settled

/-- The trace agrees with the table, and each of its events is right. -/
structure Sound (control : Control) : Prop where
  table : tableAfter control.trace = control.table
  consistent : control.table.Consistent
  right : ∀ before event, before ++ [event] <+: control.trace →
    (tableAfter before).Consistent ∧ event.Right before

theorem Sound.next {control : Control} (sound : Sound control) {event : Event}
    (right : event.Right control.trace)
    (consistent : (event.tableFrom control.table).Consistent) (calls : Nat) :
    Sound
      { table := event.tableFrom control.table, calls, trace := control.trace ++ [event] } where
  table := by rw [tableAfter_snoc, sound.table]
  consistent
  right := by
    intro before event' earlier
    rcases List.prefix_concat_iff.mp earlier with same | past
    · obtain ⟨rfl, rfl⟩ := List.append_singleton_inj.mp same
      rw [sound.table]
      exact ⟨sound.consistent, right⟩
    · exact sound.right before event' past

/-- No job in the table is recorded as finished between two operations. -/
structure AtRest (control : Control) : Prop where
  sound : Sound control
  settled : control.table.Settled

/-! ## Events that leave the table as it is -/

theorem Event.Silent.right {event : Event} (silent : event.Silent) {before : List Event}
    (settled : (tableAfter before).Settled) : event.Right before := by
  cases event with
  | print _ _ =>
      intro index job found past
      rw [settled index job found] at past
      cases past
  | kill _ _ | tcsetpgrp _ => exact settled
  | line _ _ | prompt _ | table _ | waitpid _ | signalJob _ _ _ | child _ | command _ _ | call _
  | result _ | leave _ => cases silent

theorem Event.Silent.tableFrom {event : Event} (silent : event.Silent) (table : JobTable) :
    event.tableFrom table = table := by
  cases event <;> first | rfl | cases silent

/-- An event that is no wait, no line and no write to the table. -/
def Event.Plain : Event → Prop
  | .table _ | .print _ _ | .waitpid _ => False
  | _ => True

theorem AtRest.plain {control : Control} (atRest : AtRest control) {event : Event}
    (plain : event.Plain) (calls : Nat) :
    AtRest { control with trace := control.trace ++ [event], calls } := by
  have settled : (tableAfter control.trace).Settled := atRest.sound.table ▸ atRest.settled
  have right : event.Right control.trace := by
    cases event <;> first | exact settled | cases plain
  have kept : event.tableFrom control.table = control.table := by
    cases event <;> first | rfl | cases plain
  have next := atRest.sound.next right (kept.symm ▸ atRest.sound.consistent) calls
  rw [kept] at next
  exact ⟨next, atRest.settled⟩

theorem AtRest.recorded {control : Control} (atRest : AtRest control) {events : List Event}
    (silent : ∀ event ∈ events, event.Silent) (calls : Nat) :
    AtRest { control with trace := control.trace ++ events, calls } := by
  induction events using List.reverseRecOn with
  | nil =>
      rw [List.append_nil]
      exact ⟨⟨atRest.sound.table, atRest.sound.consistent, atRest.sound.right⟩, atRest.settled⟩
  | append_singleton events event ih =>
      have before := ih fun event member => silent event (List.mem_append_left _ member)
      have last := silent event (List.mem_append_right _ (.head _))
      have kept := last.tableFrom control.table
      have right := last.right (before.sound.table ▸ before.settled)
      have next := before.sound.next right (kept.symm ▸ before.sound.consistent) calls
      rw [kept, List.append_assoc] at next
      exact ⟨next, atRest.settled⟩

theorem AtRest.silent {start finish : Control} (atRest : AtRest start)
    (silently : Silently start finish) : AtRest finish := by
  obtain ⟨events, recorded, silent⟩ := silently.trace
  have atRest' := atRest.recorded silent finish.calls
  rw [← recorded, ← silently.table] at atRest'
  exact atRest'

theorem AtRest.waited {control : Control} (atRest : AtRest control) {pids : List Int}
    (next : ∀ earlier pid, earlier ++ [pid] <+: pids →
      WaitedNext (control.trace ++ earlier.map .waitpid) pid) :
    AtRest (control.waited pids) := by
  induction pids using List.reverseRecOn with
  | nil =>
      rw [control.waited_nil]
      exact atRest
  | append_singleton pids pid ih =>
      have before := ih fun earlier other past =>
        next earlier other (past.trans (List.prefix_append _ _))
      have settled := before.sound.table ▸ before.settled
      have right : (Event.waitpid pid).Right (control.waited pids).trace :=
        ⟨settled, next pids pid (List.prefix_refl _)⟩
      have last := before.sound.next right before.sound.consistent (control.waited (pids ++ [pid])).calls
      simp only [Control.waited, List.append_assoc] at last
      rw [Control.waited, List.map_append]
      exact ⟨last, atRest.settled⟩

/-! ## Writes to the table -/

theorem AtRest.stored {control : Control} (atRest : AtRest control) {table : JobTable}
    (consistent : table.Consistent)
    (slots : ∀ index, SlotWritten (control.table.slot index) (table.slot index)) :
    Sound (control.store table) := by
  have same := atRest.sound.table
  have right : (Event.table table).Right control.trace := by
    constructor
    · intro index
      rw [same]
      exact slots index
    · intro index job found past
      rw [same] at found
      rw [atRest.settled index job found] at past
      cases past
  exact atRest.sound.next right consistent control.calls

/-- A job has been written back to its slot, and may be recorded as finished. -/
structure Noted (control : Control) (index : Nat) (job : Job) : Prop where
  sound : Sound control
  found : control.table.slot index = some job
  others : ∀ other job', other ≠ index → control.table.slot other = some job' →
    isFinishedStatus job'.status = false
  status : isFinishedStatus job.status = isJobFinished job

theorem AtRest.rewritten {control : Control} (atRest : AtRest control) {index : Nat}
    {job job' : Job} (found : control.table.slot index = some job) (updated : job.Updated job') :
    Sound (control.rewritten index job') := by
  apply atRest.stored
  · exact atRest.sound.consistent.update found updated.id
  · intro other
    rw [control.table.slot_write (JobTable.lt_of_slot found)]
    split
    · next here =>
      rw [here, found]
      exact .updated updated
    · exact .kept _

theorem AtRest.noted {control : Control} (atRest : AtRest control) {index : Nat} {job job' : Job}
    (found : control.table.slot index = some job) (updated : job.Updated job')
    (status : isFinishedStatus job'.status = isJobFinished job') :
    Noted (control.rewritten index job') index job' where
  sound := atRest.rewritten found updated
  found := JobTable.slot_update found job'
  others := by
    intro other job'' apart entry
    rw [Control.rewritten, Control.store_table,
      control.table.slot_write (JobTable.lt_of_slot found), if_neg apart] at entry
    exact atRest.settled other job'' entry
  status

theorem Noted.erased {control : Control} {index : Nat} {job : Job} (noted : Noted control index job)
    (finished : isJobFinished job = true) : AtRest (control.store (control.table.erase index)) where
  sound := by
    have same := noted.sound.table
    have right : (Event.table (control.table.erase index)).Right control.trace := by
      constructor
      · intro other
        rw [same, JobTable.slot_erase noted.found]
        split
        · next here =>
          rw [here, noted.found]
          exact .removed finished (noted.status.trans finished)
        · exact .kept _
      · intro other job' found past
        rw [same] at found ⊢
        by_cases here : other = index
        · rw [here]
        · rw [noted.others other job' here found] at past
          cases past
    exact noted.sound.next right (noted.sound.consistent.erase noted.found) control.calls
  settled := by
    intro other job' found
    rw [Control.store_table, JobTable.slot_erase noted.found] at found
    split at found
    · cases found
    · next apart => exact noted.others other job' apart found

theorem Noted.settled {control : Control} {index : Nat} {job : Job} (noted : Noted control index job)
    (unfinished : isJobFinished job = false) : AtRest control where
  sound := noted.sound
  settled := by
    intro other job' found
    by_cases here : other = index
    · rw [here, noted.found] at found
      cases found
      exact noted.status.trans unfinished
    · exact noted.others other job' here found

theorem Noted.printed {control : Control} {index : Nat} {job : Job} (noted : Noted control index job)
    (last : control.trace.getLast? = some (.table control.table)) (fd : Int) :
    Noted (control.printed fd job.line) index job where
  sound := by
    have right : (Event.print fd job.line).Right control.trace := by
      intro other job' found past
      rw [noted.sound.table] at found ⊢
      by_cases here : other = index
      · rw [here, noted.found] at found
        cases found
        exact ⟨rfl, last⟩
      · rw [noted.others other job' here found] at past
        cases past
    exact noted.sound.next right noted.sound.consistent control.calls
  found := noted.found
  others := noted.others
  status := noted.status

theorem Noted.announced {control : Control} {index : Nat} {job : Job}
    (noted : Noted control index job) (last : control.trace.getLast? = some (.table control.table))
    (lastStatus : JobStatus) (fd : Int) : AtRest (control.announced index lastStatus job fd) := by
  have ended : ∀ {control : Control}, Noted control index job →
      AtRest (if isJobFinished job then control.store (control.table.erase index) else control) := by
    intro control noted
    split
    · next finished => exact noted.erased finished
    · next alive => exact noted.settled (Bool.not_eq_true _ ▸ alive)
  unfold Control.announced
  split
  · exact ended (noted.printed last fd)
  · exact ended noted

theorem Noted.recovered {control : Control} {index : Nat} {job : Job}
    (noted : Noted control index job) : AtRest (control.recovered index job) := by
  unfold Control.recovered
  split
  · next finished => exact noted.erased finished
  · next alive =>
    apply (noted.settled (Bool.not_eq_true _ ▸ alive)).silent
    exact ⟨rfl, .single _ trivial⟩

/-! ## Operations on the jobs in the table -/

/-- A run from an atRest state ends in an atRest state. -/
def KeepsRest (start finish : Control) : Prop := AtRest start → AtRest finish

instance : Std.Refl KeepsRest where
  refl _ := id

instance : IsTrans Control KeepsRest where
  trans _ _ _ before after := after ∘ before

theorem AtRest.waitedJob {environment : Environment} {control : Control}
    (atRest : AtRest control) {index : Nat} {job : Job}
    (found : control.table.slot index = some job) {count : Nat} {all : Bool}
    {subjobs : List (Option Subjob)} {pids : List Int}
    (waited : Waited environment count job.subjobs all subjobs pids) :
    AtRest (control.waited pids) := by
  rw [← atRest.sound.table] at found
  apply atRest.waited
  intro earlier pid next
  exact .job rfl found (next.trans waited.pids_prefix.1)

theorem Control.assessed_silently (control : Control) (job : Job) :
    Silently control (control.assessed job) := by
  constructor
  · exact control.assessed_table job
  · refine ⟨_, control.assessed_trace job, ?_⟩
    intro event member
    split at member
    · cases List.mem_singleton.mp member
      trivial
    · cases member

theorem AtRest.assessed {control : Control} (atRest : AtRest control) (job : Job) :
    AtRest (control.assessed job) := atRest.silent (control.assessed_silently job)

/-- The waits for a job of the table and the change of its status, until it is written back. -/
theorem AtRest.updated {environment : Environment} {control : Control} (atRest : AtRest control)
    {index : Nat} {job : Job} (found : control.table.slot index = some job) {count : Nat}
    {all : Bool} {subjobs : List (Option Subjob)} {pids : List Int}
    (waited : Waited environment count job.subjobs all subjobs pids) {job' : Job}
    (assessed : job' = ({ job with subjobs } : Job).assessed environment (control.waited pids)) :
    Noted (((control.waited pids).assessed job').rewritten index job') index job' := by
  apply ((atRest.waitedJob found waited).assessed job').noted
  · rw [Control.assessed_table]
    exact found
  · rw [assessed]
    exact ⟨rfl, rfl, rfl, waited.updated⟩
  · rw [assessed]
    exact Job.finished_assessed environment _ _

/-- After a wait that has failed the status of the job is the same. -/
theorem AtRest.unassessed {environment : Environment} {control : Control}
    (atRest : AtRest control) {index : Nat} {job : Job}
    (found : control.table.slot index = some job) {count : Nat} {subjobs : List (Option Subjob)}
    {pids : List Int} (waited : Waited environment count job.subjobs false subjobs pids) :
    AtRest ((control.waited pids).rewritten index { job with subjobs }) := by
  have before := atRest.waitedJob found waited
  constructor
  · exact before.rewritten found ⟨rfl, rfl, rfl, waited.updated⟩
  · intro other job' entry
    rw [Control.rewritten, Control.store_table, Control.waited_table,
      control.table.slot_write (JobTable.lt_of_slot found)] at entry
    split at entry
    · cases entry
      exact atRest.settled index job found
    · exact atRest.settled other job' entry

theorem fdUpdateJob_keepsRest (environment : Environment) (fd : Int) (index : Nat) :
    Moves KeepsRest (fdUpdateJob environment fd index) := by
  intro start atRest
  cases found : start.table.slot index with
  | none =>
      rw [fdUpdateJob_absent found]
      exact atRest
  | some job =>
      obtain ⟨all, subjobs, pids, waited, ran⟩ :=
        fdUpdateJob_eq environment fd atRest.sound.consistent found
      rw [ran]
      cases all with
      | false => exact atRest.unassessed found waited
      | true =>
          apply (atRest.updated found waited rfl).announced
          rw [Control.rewritten_trace]
          exact List.getLast?_concat

theorem putJobInForeground_keepsRest (environment : Environment) (index : Nat) :
    Moves KeepsRest (putJobInForeground environment index) := by
  intro start atRest
  cases found : start.table.slot index with
  | none =>
      have absent : putJobInForeground environment index start = .ok false start := by
        rw [putJobInForeground, bind_of_ok (get_apply start)]
        dsimp only
        rw [found]
        rfl
      rw [absent]
      exact atRest
  | some job =>
      have gave : ∀ {control : Control} (pgid : Int), AtRest control → AtRest (control.gave pgid) :=
        fun pgid atRest => atRest.plain (show Event.Plain (.tcsetpgrp pgid) from trivial) _
      have called : AtRest ((start.gave job.pgid).signalled job sigcont) := by
        have signal := (gave job.pgid atRest).plain
          (show Event.Plain (.signalJob job (-job.pgid) sigcont) from trivial) (start.gave job.pgid).calls
        exact signal.plain (show Event.Plain (.kill (-job.pgid) sigcont) from trivial) _
      obtain ⟨all, subjobs, pids, waited, ran⟩ :=
        putJobInForeground_eq environment atRest.sound.consistent found
      rw [ran]
      split
      · exact gave job.pgid atRest
      · dsimp only
        split
        · exact called
        · cases all with
          | false => exact called.unassessed found waited
          | true => exact gave environment.shellPgid (called.updated found waited rfl).recovered

theorem keepsRest_steps (environment : Environment) : JobSteps environment KeepsRest where
  silent silently atRest := atRest.silent silently
  signal _ _ atRest := atRest.plain (show Event.Plain (.signalJob _ _ _) from trivial) _
  update := fdUpdateJob_keepsRest environment
  foreground := putJobInForeground_keepsRest environment

/-! ## Launching -/

theorem JobTable.Consistent.settled_grow {table : JobTable} (consistent : table.Consistent)
    (full : table.size = table.capacity) (settled : table.Settled) : table.grow.Settled := by
  intro index job found
  rw [consistent.slot_grow full] at found
  exact settled index job found

theorem addJob_keepsRest {job : Job} (alive : isFinishedStatus job.status = false) :
    Moves KeepsRest (addJob job) := by
  apply addJob_rule
  · intro control full bounded atRest
    have consistent := atRest.sound.consistent
    constructor
    · apply atRest.stored (consistent.grow full bounded)
      intro index
      rw [consistent.slot_grow full]
      exact .kept _
    · exact consistent.settled_grow full atRest.settled
  · intro control index free atRest
    obtain ⟨inside, empty, _⟩ := JobTable.slot_of_findIdx? free
    have written := control.table.slot_write inside (some { job with id := index + 1 })
    constructor
    · apply atRest.stored (atRest.sound.consistent.insert inside empty job)
      intro other
      change SlotWritten _ ((control.table.write index _).slot other)
      rw [written]
      split
      · next here =>
        rw [here, empty]
        exact .entered alive
      · exact .kept _
    · intro other job' found
      change (control.table.write index _).slot other = some job' at found
      rw [written] at found
      split at found
      · cases found
        exact alive
      · exact atRest.settled other job' found

theorem keepJob_keepsRest {job : Job} (alive : isFinishedStatus job.status = false)
    (info : InternalExitInfo) : Moves KeepsRest (keepJob info job) :=
  (addJob_keepsRest alive).bind fun _ =>
    ((keepsRest_steps .exiting).ofSilent (printJob_silent _ _)).bind fun _ => .pure _

/-- The processes of a job in the order of its calls. -/
def Job.pids (job : Job) : List Int := job.subjobs.reduceOption.map (·.pid)

theorem launchedAfter_course {added : Job → Prop} {start finish : Control}
    (course : Course added start finish) :
    launchedAfter finish.trace = launchedAfter start.trace := by
  obtain ⟨events, grown, ofJobs⟩ := course.recorded
  rw [grown]
  clear grown
  induction events using List.reverseRecOn with
  | nil => rw [List.append_nil]
  | append_singleton events event ih =>
      have last := ofJobs event (List.mem_append_right _ (.head _))
      rw [← List.append_assoc, launchedAfter_snoc,
        ← ih fun event member => ofJobs event (List.mem_append_left _ member)]
      cases event <;> first | rfl | cases last

theorem executeInternalCommand_launched {environment : Environment} {call : CommandCall}
    {start finish : Shell} {value : Int}
    (ran : executeInternalCommand environment call start = .ok value finish) :
    launchedAfter finish.control.trace = launchedAfter start.control.trace := by
  have called : launchedAfter (start.calling call).control.trace =
      launchedAfter start.control.trace := launchedAfter_snoc _ _
  rcases executeInternalCommand_ok ran with calm | ⟨_, left⟩
  · exact (launchedAfter_course calm.course).trans called
  · obtain ⟨control, course, _, same⟩ := left.control
    rw [same]
    exact (launchedAfter_snoc _ _).trans ((launchedAfter_course course).trans called)

theorem executeCalls_launched {environment : Environment} {command : Command}
    {calls : List CommandCall} :
    ∀ {slots : List (Option Subjob)} {info : Option InternalExitInfo} {job job' : Job}
      {chief : InternalExitInfo} {start finish : Shell},
      job.subjobs = slots ++ List.replicate calls.length none →
      executeCalls environment command slots.length info job calls start =
        .ok (some chief, job') finish →
      slots.reduceOption.map (·.pid) = launchedAfter start.control.trace →
      job'.pids = launchedAfter finish.control.trace := by
  induction calls with
  | nil =>
      intro slots info job job' chief start finish empty ran known
      cases ran
      rw [List.length_nil, List.replicate_zero, List.append_nil] at empty
      rw [Job.pids, empty]
      exact known
  | cons call rest ih =>
      intro slots info job job' chief start finish empty ran known
      obtain ⟨⟨first, job₁⟩, state, single, continued⟩ := bind_eq_ok.mp ran
      rw [List.length_cons, List.replicate_succ] at empty
      cases first with
      | none =>
          dsimp only at continued
          split at continued
          · obtain ⟨_, _, _, same⟩ := bind_eq_ok.mp continued
            cases same
          · cases continued
      | some first =>
          dsimp only at continued
          rcases executeSingleCommand_ok single with
            ⟨internal, noPid, executed, rfl⟩ | ⟨external, pid, _, rfl⟩
          · rw [if_neg (not_not.mpr noPid)] at continued
            have longer : slots.length + 1 = (slots ++ [none]).length := by simp
            rw [longer] at continued
            apply ih _ continued
            · rw [executeInternalCommand_launched executed, ← known]
              simp [List.reduceOption_append]
            · simp [empty]
          · have different : first.pid ≠ uninitializedPid := by
              unfold uninitializedPid
              omega
            rw [if_pos different] at continued
            have longer : slots.length + 1 =
                (slots ++ [some (newSubjob call first.pid .running)]).length := by simp
            rw [longer] at continued
            obtain ⟨_, _, _, descriptors, grown⟩ := executeSingleCommand_forked external single
            apply ih _ continued
            · rw [grown, launchedAfter_snoc, launchedAfter_snoc]
              simp [Event.launchedFrom, ← known, List.reduceOption_append, newSubjob]
            · simp [empty]

/-- The processes of a job that has just been launched are all waited for. -/
theorem unfinished_launched {calls : List CommandCall} {slots : List (Option Subjob)}
    (launched : List.Forall₂ LaunchedAs calls slots) : unfinished slots = slots.reduceOption := by
  induction launched with
  | nil => rfl
  | @cons call slot _ _ head _ ih =>
      cases slot with
      | none => exact ih
      | some subjob =>
          rw [unfinished_cons _ (by rw [head.running]; rfl), ih]
          rfl

theorem blockingWaitForJob_keepsRest (environment : Environment) {job : Job} {start : Control}
    (launched : (unfinished job.subjobs).map (·.pid) = launchedAfter start.trace) :
    Ends (KeepsRest start) start (blockingWaitForJob environment job) := by
  intro atRest
  obtain ⟨all, subjobs, pids, waited, ran⟩ := blockingWaitForJob_eq environment job start
  have waits : AtRest (start.waited pids) := by
    apply atRest.waited
    intro earlier pid next
    exact .launched rfl (launched ▸ next.trans waited.pids_prefix.1)
  rw [ran]
  cases all with
  | true => exact waits.assessed _
  | false => exact waits

/-! ## Commands -/

theorem shellKeepsRest_plain (shell : Shell) {event : Event} (plain : event.Plain) :
    OnControl KeepsRest shell (shell.recording event) := fun atRest => atRest.plain plain _

theorem executeInternalCommand_keepsRest (environment : Environment) (call : CommandCall) :
    Moves (OnControl KeepsRest) (executeInternalCommand environment call) := by
  apply (keepsRest_steps environment).onControl.executeInternalCommand
  · exact fun shell => shellKeepsRest_plain shell (show Event.Plain (.call call) from trivial)
  · intro shell value
    exact shellKeepsRest_plain shell (show Event.Plain (.leave call) from trivial)

theorem shellKeepsRest_launch (environment : Environment) :
    LaunchSteps environment (OnControl KeepsRest) where
  silent silently := .lift fun atRest => atRest.silent silently
  kernel _ _ := id
  call call shell := shellKeepsRest_plain shell (show Event.Plain (.call call) from trivial)
  child child shell := shellKeepsRest_plain shell (show Event.Plain (.child child) from trivial)
  internal := executeInternalCommand_keepsRest environment

theorem executeExternalCommand_keepsRest (environment : Environment) {command : Command}
    {start : Shell} (fresh : launchedAfter start.control.trace = []) :
    Ends ((OnControl KeepsRest) start) start (executeExternalCommand environment command) := by
  have launches := shellKeepsRest_launch environment
  refine Ends.seq (launches.executeCalls command command.commandCalls 0 none (setupJob command) start)
    fun result launched launch => ?_
  refine Ends.seq (launches.modifyKernel _ launched) fun _ closed closing => ?_
  have same : closed.control = launched.control := by
    cases closing
    rfl
  obtain ⟨info, job⟩ := result
  cases info with
  | none => exact Moves.pure _ _
  | some info =>
      obtain ⟨slots, shape⟩ := executeAsJob_slots launch
      dsimp only
      split
      · have running : isFinishedStatus job.status = false := by
          rw [shape]
          rfl
        exact liftJob_onControl (keepJob_keepsRest running info) closed
      · have pids : (unfinished job.subjobs).map (·.pid) = launchedAfter closed.control.trace := by
          rw [unfinished_launched slots, same]
          have empty : (setupJob command).subjobs =
              [] ++ List.replicate command.commandCalls.length none := rfl
          exact executeCalls_launched empty launch fresh.symm
        refine Ends.seq (liftJob_ends (blockingWaitForJob_keepsRest environment pids))
          fun waited state _ => ?_
        refine Ends.seq (launches.ofSilent (tcsetpgrp_silent environment _) state) fun given _ _ => ?_
        split
        · exact Moves.throw _ _
        · split
          · exact Moves.pure _ _
          · split
            · exact Moves.pure _ _
            · next alive =>
              have alive' : isFinishedStatus waited.2.status = false := by
                rw [← isFinishedStatus_iff] at alive
                exact Bool.not_eq_true _ ▸ alive
              exact liftJob_onControl (keepJob_keepsRest alive' info) _

theorem executeCommand_keepsRest (environment : Environment) {command : Command} {start : Shell}
    (fresh : launchedAfter start.control.trace = []) :
    Ends ((OnControl KeepsRest) start) start (executeCommand environment command) := by
  apply executeCommand_ends
  · rcases runCommand_eq environment command with ⟨call, _, _, same⟩ | ⟨_, same⟩
    · rw [same]
      exact ((executeInternalCommand_keepsRest environment call).bind fun _ => .pure _) start
    · rw [same]
      exact executeExternalCommand_keepsRest environment fresh
  · exact fun _ _ => id
  · exact fun exitCode shell =>
      shellKeepsRest_plain shell (show Event.Plain (.result exitCode) from trivial)

theorem readLine_keepsRest (environment : Environment) (line : CString) :
    Moves (OnControl KeepsRest) (readLine environment line) := by
  refine Moves.get.bind fun shell => ?_
  have recorded : Moves (OnControl KeepsRest) (liftJob (record (.line line shell.parser))) :=
    fun start => shellKeepsRest_plain start (show Event.Plain (.line _ _) from trivial)
  exact recorded.bind fun _ => .modifyGet fun _ => id

theorem prompt_keepsRest (environment : Environment) (inputs : List (Option CString)) :
    Moves (OnControl KeepsRest) (prompt environment inputs) := by
  apply prompt_moves (keepsRest_steps environment).onControl
  · intro event start outer
    apply shellKeepsRest_plain
    cases event <;> trivial
  · exact readLine_keepsRest environment
  · intro command later start
    apply executeCommand_keepsRest
    exact launchedAfter_snoc _ _

/-! ## The waits of a command in the foreground -/

/-- No process is waited for. -/
def WithoutWaits (start finish : Control) : Prop :=
  Recorded (fun event => event.isWaitpid = false) start.trace finish.trace

instance : Std.Refl WithoutWaits where
  refl _ := refl_of (Recorded _) _

instance : IsTrans Control WithoutWaits where
  trans _ _ _ := trans_of (Recorded _)

theorem Silently.withoutWaits {start finish : Control} (silently : Silently start finish) :
    WithoutWaits start finish := by
  apply silently.trace.mono
  intro event silent
  cases event <;> first | rfl | cases silent

theorem keepJob_withoutWaits (info : InternalExitInfo) (job : Job) :
    Moves WithoutWaits (keepJob info job) := by
  have adds : Moves WithoutWaits (addJob job) :=
    addJob_rule (fun _ _ _ => .single _ rfl) fun _ _ _ => .single _ rfl
  refine adds.bind fun _ => ?_
  exact ((printJob_silent _ _).mono fun _ _ => Silently.withoutWaits).bind fun _ => .pure _

/-- Once its job has been launched, a command in the foreground waits at most once for each
process of the job. -/
theorem executeExternalCommand_waits {environment : Environment} {command : Command}
    {start launched : Shell} {info : InternalExitInfo} {job : Job}
    (launch : executeAsJob environment command (setupJob command) start =
      .ok (some info, job) launched)
    (foreground : command.background = false) :
    ∃ pids, pids <+: (unfinished job.subjobs).map (·.pid) ∧
      Ends (fun finish => WithoutWaits (launched.control.waited pids) finish.control) start
        (executeExternalCommand environment command) := by
  obtain ⟨all, subjobs, pids, waited, ran⟩ :=
    blockingWaitForJob_eq environment job launched.control
  refine ⟨pids, waited.pids_prefix.1, ?_⟩
  have silently : ∀ {α : Type} {action : JobAction α}, Moves Silently action →
      Moves (OnControl WithoutWaits) (liftJob action) := fun silent =>
    liftJob_onControl (silent.mono fun _ _ => Silently.withoutWaits)
  have ends : ∀ (exitCode : Int) (job' : Job) (state : Shell),
      WithoutWaits (launched.control.waited pids) state.control →
      Ends (fun finish => WithoutWaits (launched.control.waited pids) finish.control) state (do
        if !(← liftJob (tcsetpgrp environment environment.shellPgid)) then throw (.exited 1)
        else if exitCode = -1 then return newCommandResult 1
        else if job'.status = .done ∨ job'.status = .killed ∨ job'.status = .detached then
          return newCommandResult (if hasExitCode info then info.exitCode else exitCode)
        else liftJob (keepJob info job')) := by
    intro exitCode job' state earlier
    apply trans_of WithoutWaits earlier
    refine Ends.seq (silently (tcsetpgrp_silent environment _) state) fun given _ _ => ?_
    split
    · exact Moves.throw _ _
    · split
      · exact Moves.pure _ _
      · split
        · exact Moves.pure _ _
        · exact liftJob_onControl (keepJob_withoutWaits info job') _
  obtain ⟨closed, closing, same⟩ : ∃ closed,
      modifyKernel (closePipes command.openPipes) launched = .ok () closed ∧
        closed.control = launched.control := ⟨_, rfl, rfl⟩
  unfold executeExternalCommand
  rw [Ends, bind_of_ok launch]
  dsimp only
  rw [bind_of_ok closing, if_neg (by simp [foreground])]
  rw [← same] at ran ends ⊢
  cases all with
  | false =>
      rw [if_neg Bool.false_ne_true] at ran
      rw [bind_of_ok (liftJob_eq_ok.mpr ⟨_, ran, rfl⟩)]
      exact ends _ _ _ (refl_of WithoutWaits _)
  | true =>
      rw [if_pos rfl] at ran
      rw [bind_of_ok (liftJob_eq_ok.mpr ⟨_, ran, rfl⟩)]
      apply ends
      exact (Control.assessed_silently _ _).withoutWaits

/-! ## Runs -/

/-- A pass prints one line for a job it removes. -/
theorem Pass.announced {environment : Environment} {fd : Int} {job job' : Job} {slot : Option Job}
    {events : List Event} (pass : Pass environment fd job job' slot events)
    (alive : isFinishedStatus job.status = false) (finished : isJobFinished job' = true) :
    isFinishedStatus job'.status = true ∧
      events.filter Event.isPrint = [.print fd job'.line] := by
  have status := (pass.status alive).trans finished
  refine ⟨status, ?_⟩
  rw [pass.printed, if_pos]
  intro same
  rw [same, status] at alive
  cases alive

/-- After the announcement of a job its slot is emptied at once. -/
theorem Sound.removed {control : Control} (sound : Sound control) (settled : control.table.Settled)
    {before after : List Event} {fd : Int} {text : CString}
    (split : control.trace = before ++ .print fd text :: after) {index : Nat} {job : Job}
    (found : (tableAfter before).slot index = some job)
    (finished : isFinishedStatus job.status = true) :
    ∃ later, after = .table ((tableAfter before).erase index) :: later := by
  have same : tableAfter (before ++ [.print fd text]) = tableAfter before := tableAfter_snoc _ _
  have unsettled : ¬ (tableAfter before).Settled := by
    intro settled
    rw [settled index job found] at finished
    cases finished
  cases after with
  | nil =>
      rw [← sound.table, split, same] at settled
      exact absurd settled unsettled
  | cons next later =>
      have earlier : (before ++ [.print fd text]) ++ [next] <+: control.trace := by
        rw [split]
        exact ⟨later, by simp⟩
      obtain ⟨_, right⟩ := sound.right _ _ earlier
      cases next with
      | table written =>
          obtain ⟨_, removed⟩ := right
          rw [same] at removed
          exact ⟨later, by rw [removed index job found finished]⟩
      | print fd' text' =>
          obtain ⟨_, last⟩ := right index job (same ▸ found) finished
          rw [List.getLast?_concat] at last
          cases last
      | waitpid pid => exact absurd (same ▸ right.1) unsettled
      | line _ _ | prompt _ | kill _ _ | signalJob _ _ _ | tcsetpgrp _ | child _ | command _ _
      | call _ | result _ | leave _ => exact absurd (same ▸ right) unsettled

theorem atRest_started : AtRest startedJobs where
  sound :=
    { table := rfl
      consistent := consistent_initJobTable
      right := by
        intro before event earlier
        simpa [startedJobs] using earlier.length_le }
  settled := by
    intro index job found
    have entry := JobTable.slot_eq_some.mp found
    simp [startedJobs, initJobTable, List.getElem?_replicate] at entry

end Jsh
