import Jsh.Numbers
import Jsh.ShellMoves

/-!
# Arguments of `kill`

The signals that `kill_command` sends, and the arguments for which it sends none.
-/

set_option autoImplicit false

namespace Jsh

open Library

/-! ## Signals sent -/

/-- These signals have been sent, and the job table is the same. -/
structure Sends (signals : List (Int × Int)) (start finish : Control) : Prop where
  table : finish.table = start.table
  trace : sentSignals finish.trace = sentSignals start.trace ++ signals

theorem Prints.sends {fd : Int} {lines : List CString} {start finish : Control}
    (prints : Prints fd lines start finish) : Sends [] start finish := by
  have none : ∀ lines : List CString, sentSignals (lines.map (.print fd)) = [] := by
    intro lines
    simp [sentSignals, Event.sent]
  refine ⟨prints.table, ?_⟩
  rw [prints.trace, sentSignals, List.filterMap_append, ← sentSignals, ← sentSignals, none]

theorem Sends.trans {signals signals' : List (Int × Int)} {start middle finish : Control}
    (before : Sends signals start middle) (after : Sends signals' middle finish) :
    Sends (signals ++ signals') start finish :=
  ⟨after.table.trans before.table, by rw [after.trace, before.trace, List.append_assoc]⟩

/-- The answer to a signal is a matter of what `kill` has returned. -/
theorem killAnswer_run (fd sig : Int) (result : Option KillError) (start : Control) :
    ∃ finish messages, killAnswer fd sig result start = .ok result.isNone finish ∧
      Prints fd messages start finish := by
  cases result with
  | none => exact ⟨start, [], rfl, rfl, (List.append_nil _).symm⟩
  | some error =>
      cases error with
      | invalidSignal => exact ⟨_, _, rfl, (dprintf_prints fd _ start).2⟩
      | noSuchProcess => exact ⟨_, _, rfl, (dprintf_prints fd _ start).2⟩
      | other text => exact ⟨_, _, rfl, (dprintf_prints fd _ start).2⟩

theorem kill_run (environment : Environment) (target signal : Int) (start : Control) :
    ∃ finish, kill environment target signal start =
        .ok (environment.kill start.calls target signal) finish ∧
      Sends [(target, signal)] start finish :=
  ⟨_, rfl, rfl, by simp [sentSignals, Event.sent]⟩

theorem signalJob_run (environment : Environment) (job : Job) (signal : Int) (start : Control) :
    ∃ finish, signalJob environment job signal start =
        .ok (environment.kill start.calls (-job.pgid) signal) finish ∧
      Sends [(-job.pgid, signal)] start finish := by
  refine ⟨_, rfl, rfl, ?_⟩
  simp [sentSignals]
  rfl

/-! ## What `kill_command` does -/

/-- The target `kill_command` passes for an identifier. -/
inductive KillTarget (table : JobTable) : CString → Int → Prop where
  | job {identifier : CString} {index : Nat} {job : Job} : NamesJob table identifier index job →
      KillTarget table identifier (-job.pgid)
  | pid {identifier : CString} {value : Int} : startsWith identifier ['%'] = false →
      IntmaxRead identifier value → KillTarget table identifier (toInt value)

/-- The text after the `-` of the first argument. -/
def givenSignal (call : CommandCall) : Option CString :=
  if startsWith (call.argv.getD 1 []) ['-'] then some ((call.argv.getD 1 []).drop 1) else none

/-- The argument that says where the signal goes. -/
def killIdentifier (call : CommandCall) : Option CString :=
  if startsWith (call.argv.getD 1 []) ['-'] then
    if call.argc = 3 then some (call.argv.getD 2 []) else none
  else some (call.argv.getD 1 [])

/-- The signal `kill_command` passes. -/
def KillSignal (call : CommandCall) (signal : Int) : Prop :=
  match givenSignal call with
  | none => signal = sigterm
  | some text => ∃ value, IntmaxRead text value ∧ signal = toInt value

/-- All the arguments that `kill_command` reads can be read. -/
def KillReads (table : JobTable) (call : CommandCall) : Prop :=
  (2 ≤ call.argc ∧ call.argc ≤ 3) ∧ (∃ signal, KillSignal call signal) ∧
    ∀ identifier, killIdentifier call = some identifier →
      ∃ target, KillTarget table identifier target

/-- How `kill_command` ends. -/
inductive KillEnds (environment : Environment) (call : CommandCall) (start : Control) :
    Int → Control → Prop where
  | refused {finish : Control} : ¬ KillReads start.table call → Sends [] start finish →
      KillEnds environment call start 1 finish
  | missing {finish : Control} : KillReads start.table call → killIdentifier call = none →
      Sends [] start finish → KillEnds environment call start 0 finish
  | sent {finish : Control} {identifier : CString} {signal target : Int} :
      KillReads start.table call → killIdentifier call = some identifier →
      KillSignal call signal → KillTarget start.table identifier target →
      Sends [(target, signal)] start finish →
      KillEnds environment call start
        (exitCodeOf (environment.kill start.calls target signal).isNone) finish

theorem killTarget_cases (environment : Environment) (sig : Int) (identifier : CString) (fd : Int)
    (start : Control) :
    (∃ target finish, KillTarget start.table identifier target ∧
        killTarget environment sig identifier fd start =
          .ok (exitCodeOf (environment.kill start.calls target sig).isNone) finish ∧
        Sends [(target, sig)] start finish) ∨
      (∀ target, ¬ KillTarget start.table identifier target) ∧
        ∃ finish, killTarget environment sig identifier fd start = .ok 1 finish ∧
          Sends [] start finish := by
  unfold killTarget
  by_cases marked : startsWith identifier ['%'] = true
  · rw [if_pos marked]
    cases getJob_cases identifier fd start with
    | inl found =>
        obtain ⟨index, job, names, ran⟩ := found
        have slot := names.slot
        obtain ⟨middle, signalled, sends⟩ := signalJob_run environment job sig start
        obtain ⟨finish, messages, answered, prints⟩ := killAnswer_run fd sig
          (environment.kill start.calls (-job.pgid) sig) middle
        refine .inl ⟨_, finish, .job names, ?_, sends.trans prints.sends⟩
        rw [bind_of_ok ran]
        dsimp only
        rw [bind_of_ok (get_apply start), slot]
        dsimp only
        rw [bind_of_ok signalled, bind_of_ok answered]
        rfl
    | inr refused =>
        obtain ⟨none, message, _, ran⟩ := refused
        refine .inr ⟨fun target accepted => ?_, _, bind_of_ok ran,
          (dprintf_prints fd _ start).2.sends⟩
        cases accepted with
        | job names => exact none _ _ names
        | pid unmarked _ => rw [marked] at unmarked; cases unmarked
  · rw [if_neg marked]
    cases parseIntmaxT_cases identifier fd start with
    | inl parsed =>
        obtain ⟨value, read, ran⟩ := parsed
        obtain ⟨middle, signalled, sends⟩ := kill_run environment (toInt value) sig start
        obtain ⟨finish, messages, answered, prints⟩ := killAnswer_run fd sig
          (environment.kill start.calls (toInt value) sig) middle
        refine .inl ⟨_, finish, .pid (Bool.eq_false_iff.mpr marked) read, ?_,
          sends.trans prints.sends⟩
        rw [bind_of_ok ran]
        dsimp only
        rw [bind_of_ok signalled, bind_of_ok answered]
        rfl
    | inr refused =>
        obtain ⟨none, message, _, ran⟩ := refused
        refine .inr ⟨fun target accepted => ?_, _, bind_of_ok ran,
          (dprintf_prints fd _ start).2.sends⟩
        cases accepted with
        | job names =>
            cases names
            exact marked rfl
        | pid _ read => exact none _ read

/-- The end of `kill_command` from that of its last part. -/
theorem killEnds_of_target {environment : Environment} {call : CommandCall} {start : Control}
    {identifier : CString} {signal : Int} (few : 2 ≤ call.argc ∧ call.argc ≤ 3)
    (own : KillSignal call signal) (given : killIdentifier call = some identifier) :
    ∃ value finish, killTarget environment signal identifier call.stderr start = .ok value finish ∧
      KillEnds environment call start value finish := by
  cases killTarget_cases environment signal identifier call.stderr start with
  | inl sent =>
      obtain ⟨target, finish, addressed, ran, sends⟩ := sent
      refine ⟨_, finish, ran,
        .sent ⟨few, ⟨signal, own⟩, fun other same => ?_⟩ given own addressed sends⟩
      rw [given] at same
      cases same
      exact ⟨target, addressed⟩
  | inr refused =>
      obtain ⟨none, finish, ran, sends⟩ := refused
      refine ⟨1, finish, ran, .refused (fun reads => ?_) sends⟩
      obtain ⟨target, addressed⟩ := reads.2.2 identifier given
      exact none target addressed

theorem killCommand_ends (environment : Environment) (call : CommandCall) (start : Control) :
    ∃ value finish, killCommand environment call start = .ok value finish ∧
      KillEnds environment call start value finish := by
  unfold killCommand
  by_cases usage : call.argc < 2 ∨ call.argc > 3
  · have printed := (dprintf_prints call.stderr "kill: incorrect usage of kill command.\n".toList
      start).2.append (dprintf_prints call.stderr
        "kill: correct usage: kill [-sig] %job|pid\n".toList (start.printed _ _)).2
    rw [if_pos usage]
    exact ⟨1, _, rfl, .refused (fun reads => by have := reads.1; omega) printed.sends⟩
  · have few : 2 ≤ call.argc ∧ call.argc ≤ 3 := by omega
    rw [if_neg usage]
    by_cases dash : startsWith (call.argv.getD 1 []) ['-'] = true
    · have given : givenSignal call = some ((call.argv.getD 1 []).drop 1) := if_pos dash
      rw [if_pos dash]
      cases parseIntmaxT_cases ((call.argv.getD 1 []).drop 1) call.stderr start with
      | inl parsed =>
          obtain ⟨value, read, ran⟩ := parsed
          have own : KillSignal call (toInt value) := by
            unfold KillSignal
            rw [given]
            exact ⟨value, read, rfl⟩
          rw [bind_of_ok ran]
          dsimp only
          by_cases three : call.argc = 3
          · rw [if_neg (not_not_intro three)]
            exact killEnds_of_target few own (by rw [killIdentifier, if_pos dash, if_pos three])
          · have none : killIdentifier call = none := by
              rw [killIdentifier, if_pos dash, if_neg three]
            rw [if_pos three]
            refine ⟨0, _, rfl, .missing ⟨few, ⟨_, own⟩, fun identifier some => ?_⟩ none
              (dprintf_prints call.stderr _ start).2.sends⟩
            rw [none] at some
            cases some
      | inr refused =>
          obtain ⟨none, message, _, ran⟩ := refused
          rw [bind_of_ok ran]
          refine ⟨1, _, rfl, .refused (fun reads => ?_)
            (dprintf_prints call.stderr message start).2.sends⟩
          obtain ⟨signal, own⟩ := reads.2.1
          unfold KillSignal at own
          rw [given] at own
          obtain ⟨value, read, _⟩ := own
          exact none value read
    · have own : KillSignal call sigterm := by
        unfold KillSignal
        rw [givenSignal, if_neg dash]
      rw [if_neg dash]
      exact killEnds_of_target few own (by rw [killIdentifier, if_neg dash])

/-! ## What its arguments say -/

/-- The integers among its arguments: the signal, and the pid or the number of the job. -/
def killIntegers (call : CommandCall) : List CString :=
  (givenSignal call).toList ++ (killIdentifier call).toList.map fun identifier =>
    if startsWith identifier ['%'] then identifier.drop 1 else identifier

/-- The signal is the one written, or `SIGTERM`. -/
def SignalWritten (call : CommandCall) (signal : Int) : Prop :=
  match givenSignal call with
  | none => signal = sigterm
  | some text => WrittenInteger text signal

/-- The target is the pid written, or the group of the job named. -/
def TargetWritten (table : JobTable) (call : CommandCall) (target : Int) : Prop :=
  ∃ identifier, killIdentifier call = some identifier ∧
    ((∃ index job, NamesJob table identifier index job ∧ target = -job.pgid) ∨
      WrittenInteger identifier target)

/-- An integer is written that is no `int`, or there is no digit behind the `-`. -/
def KillMalformed (call : CommandCall) : Prop :=
  (∃ text ∈ killIntegers call, ∃ value, WrittenInteger text value ∧ ¬ FitsInt value) ∨
    ∃ text, givenSignal call = some text ∧ ∀ char ∈ text, char.isDigit = false

/-- A run of `kill_command` sends what its arguments say, and nothing if they are
malformed. -/
def KillFaithful (call : CommandCall) (start : Control) (value : Int) (finish : Control) : Prop :=
  ∃ signals, sentSignals finish.trace = sentSignals start.trace ++ signals ∧
    (∀ target signal, (target, signal) ∈ signals →
      SignalWritten call signal ∧ TargetWritten start.table call target) ∧
    (KillMalformed call → value = 1 ∧ signals = [])

/-- If all its arguments can be read, they are integers of the type `int`. -/
def KillInRange (table : JobTable) (call : CommandCall) : Prop :=
  KillReads table call →
    ∀ text ∈ killIntegers call, IntWritten text

theorem signalWritten_of_fits {call : CommandCall} {signal : Int} (passed : KillSignal call signal)
    (fit : ∀ text, givenSignal call = some text → IntWritten text) :
    SignalWritten call signal := by
  unfold KillSignal at passed
  unfold SignalWritten
  cases given : givenSignal call with
  | none =>
      rw [given] at passed
      exact passed
  | some text =>
      rw [given] at passed
      obtain ⟨value, read, rfl⟩ := passed
      obtain ⟨value', written, fits⟩ := fit text given
      cases read with
      | integer written' _ _ =>
          cases written.unique written'
          dsimp only
          rw [toInt_of_fitsInt fits]
          exact written
      | empty => exact absurd rfl written.ne_nil

theorem targetWritten_of_fits {table : JobTable} {call : CommandCall} {identifier : CString}
    {target : Int} (given : killIdentifier call = some identifier)
    (passed : KillTarget table identifier target)
    (fit : startsWith identifier ['%'] = false → IntWritten identifier) :
    TargetWritten table call target := by
  refine ⟨identifier, given, ?_⟩
  cases passed with
  | job names => exact .inl ⟨_, _, names, rfl⟩
  | pid unmarked read =>
      obtain ⟨value', written, fits⟩ := fit unmarked
      cases read with
      | integer written' _ _ =>
          cases written.unique written'
          rw [toInt_of_fitsInt fits]
          exact .inr written
      | empty => exact absurd rfl written.ne_nil

theorem SignalWritten.unique {call : CommandCall} {signal signal' : Int}
    (written : SignalWritten call signal) (written' : SignalWritten call signal') :
    signal = signal' := by
  unfold SignalWritten at written written'
  cases given : givenSignal call with
  | none =>
      rw [given] at written written'
      exact written.trans written'.symm
  | some text =>
      rw [given] at written written'
      exact WrittenInteger.unique written written'

theorem TargetWritten.unique {table : JobTable} {call : CommandCall} {target target' : Int}
    (written : TargetWritten table call target) (written' : TargetWritten table call target') :
    target = target' := by
  have apart : ∀ {identifier index job value}, NamesJob table identifier index job →
      ¬ WrittenInteger identifier value := by
    intro identifier index job value names
    cases names
    exact not_writtenInteger_percent _ _
  obtain ⟨identifier, given, own⟩ := written
  obtain ⟨identifier', given', own'⟩ := written'
  cases given.symm.trans given'
  cases own with
  | inl job =>
      obtain ⟨index, job, names, rfl⟩ := job
      cases own' with
      | inl job' =>
          obtain ⟨_, _, names', rfl⟩ := job'
          obtain ⟨_, rfl⟩ := names.unique names'
          rfl
      | inr pid => exact absurd pid (apart names)
  | inr pid =>
      cases own' with
      | inl job' =>
          obtain ⟨_, _, names', _⟩ := job'
          exact absurd pid (apart names')
      | inr pid' => exact pid.unique pid'

theorem not_malformed_of_fits {call : CommandCall}
    (fit : ∀ text ∈ killIntegers call, IntWritten text) :
    ¬ KillMalformed call := by
  rintro (⟨text, member, value, written, large⟩ | ⟨text, given, bare⟩)
  · obtain ⟨value', written', fits⟩ := fit text member
    cases written.unique written'
    exact large fits
  · obtain ⟨value, written, _⟩ := fit text (by simp [killIntegers, given])
    obtain ⟨char, member, digit⟩ := written.digit_mem
    rw [bare char member] at digit
    cases digit

/-- The arguments read are integers of the type `int` if none is malformed and the one
for the target is not empty. -/
theorem fits_of_reads {table : JobTable} {call : CommandCall} (reads : KillReads table call)
    (proper : ¬ KillMalformed call) (some : killIdentifier call ≠ some []) :
    ∀ text ∈ killIntegers call, IntWritten text := by
  intro text member
  have fits : ∀ value, WrittenInteger text value → FitsInt value := fun value written =>
    Decidable.of_not_not fun large => proper (.inl ⟨text, member, value, written, large⟩)
  cases List.mem_append.mp member with
  | inl signal =>
      have given : givenSignal call = Option.some text := Option.mem_toList.mp signal
      obtain ⟨signal, own⟩ := reads.2.1
      unfold KillSignal at own
      rw [given] at own
      obtain ⟨value, read, _⟩ := own
      cases read with
      | integer written _ _ => exact ⟨value, written, fits value written⟩
      | empty => exact absurd (.inr ⟨[], given, by simp⟩) proper
  | inr target =>
      obtain ⟨identifier, given, rfl⟩ := List.mem_map.mp target
      have given : killIdentifier call = Option.some identifier := Option.mem_toList.mp given
      obtain ⟨target, addressed⟩ := reads.2.2 identifier given
      cases addressed with
      | job names =>
          cases names with
          | mk written _ _ _ _ => exact ⟨_, written, fits _ written⟩
      | pid unmarked read =>
          rw [unmarked] at fits ⊢
          cases read with
          | integer written _ _ => exact ⟨_, written, fits _ written⟩
          | empty => exact absurd given some

/-- `kill_command` always returns, and it keeps to its arguments exactly if one of them can
not be read or all of them are integers of the type `int`. -/
theorem killCommand_faithful_iff (environment : Environment) (call : CommandCall)
    (start : Control) :
    ∃ value finish, killCommand environment call start = .ok value finish ∧
      (KillFaithful call start value finish ↔ KillInRange start.table call) := by
  obtain ⟨value, finish, ran, ends⟩ := killCommand_ends environment call start
  refine ⟨value, finish, ran, ?_⟩
  cases ends with
  | refused unread sends =>
      refine ⟨fun _ reads => absurd reads unread, fun _ => ?_⟩
      exact ⟨[], sends.trace, by simp, fun _ => ⟨rfl, rfl⟩⟩
  | missing reads none sends =>
      constructor
      · rintro ⟨signals, trace, _, refuses⟩ _
        have proper : ¬ KillMalformed call := fun malformed => by cases (refuses malformed).1
        exact fits_of_reads reads proper (by simp [none])
      · intro fit
        refine ⟨[], sends.trace, by simp, fun malformed => ?_⟩
        exact absurd malformed (not_malformed_of_fits (fit reads))
  | sent reads given own addressed sends =>
      constructor
      · rintro ⟨signals, trace, written, refuses⟩ _
        have same := List.append_cancel_left (sends.trace.symm.trans trace)
        subst same
        have proper : ¬ KillMalformed call := fun malformed => by cases (refuses malformed).2
        refine fits_of_reads reads proper fun empty => ?_
        obtain ⟨identifier, given', target⟩ := (written _ _ (.head _)).2
        rw [empty] at given'
        cases given'
        cases target with
        | inl job =>
            obtain ⟨_, _, names, _⟩ := job
            cases names
        | inr integer => exact integer.ne_nil rfl
      · intro fit
        refine ⟨_, sends.trace, ?_, fun malformed => ?_⟩
        · intro target signal member
          cases List.mem_singleton.mp member
          have fits := fit reads
          exact ⟨signalWritten_of_fits own fun text signal => fits text (by simp [killIntegers, signal]),
            targetWritten_of_fits given addressed fun unmarked =>
              fits _ (by simp [killIntegers, given, unmarked])⟩
        · exact absurd malformed (not_malformed_of_fits (fit reads))

/-- The command `kill - 5`. -/
def killDash : CommandCall := newCommandCall ["kill".toList, "-".toList, "5".toList] []

/-- Without a signal number, the signal 0 is sent. -/
theorem kill_without_number :
    ∃ finish, killCommand (.stopping false) killDash startedJobs = .ok 0 finish ∧
      sentSignals finish.trace = [(5, 0)] ∧ ¬ KillFaithful killDash startedJobs 0 finish := by
  refine ⟨_, rfl, rfl, ?_⟩
  rintro ⟨_, _, _, refuses⟩
  have malformed : KillMalformed killDash := .inr ⟨[], rfl, by simp⟩
  cases (refuses malformed).1

end Jsh
