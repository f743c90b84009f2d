import Jsh.JobGroups

/-!
# Leaving the shell

What happens in a run of the shell once `exit_command` has accepted to leave. The
past of a moment is read off the trace.
-/

set_option autoImplicit false

namespace Jsh

open Library

/-! ## The past -/

/-- What a trace says about the commands executed so far. -/
structure Past where
  /-- The last command, with those of its line that follow it. -/
  command : Option (Command × List (Option Command))
  /-- The exit code of the last command that has been executed. -/
  exitCode : Int
  /-- A segment of a line has been rejected since. -/
  rejected : Prop

def Past.next (files : FileOutcomes) (past : Past) : Event → Past
  | .command command later => { past with command := some (command, later) }
  | .result exitCode => { past with exitCode, rejected := False }
  | .line line parser =>
      { past with rejected := past.rejected ∨ ∃ index, Rejected files parser (segments line) index }
  | _ => past

def past (files : FileOutcomes) (trace : List Event) : Past :=
  trace.foldl (Past.next files) { command := none, exitCode := 0, rejected := False }

/-- Each time `exit` accepts to leave, it is the only call of its command, which is the
last one of its line, and without argument there has been no rejected segment since
the last command. -/
def Orderly (files : FileOutcomes) (trace : List Event) : Prop :=
  ∀ before call after, trace = before ++ .leave call :: after →
    (∃ command, (past files before).command = some (command, []) ∧ command.commandCalls = [call]) ∧
      (call.argc = 1 → ¬ (past files before).rejected)

section Past

variable {files : FileOutcomes}

theorem past_append (before events : List Event) :
    past files (before ++ events) = events.foldl (Past.next files) (past files before) :=
  List.foldl_append

theorem past_single (before : List Event) (event : Event) :
    past files (before ++ [event]) = (past files before).next files event := past_append _ _

/-- Inner events do not change the past. -/
theorem past_of_recorded {before after : List Event}
    (recorded : Recorded Event.Inner before after) :
    past files after = past files before := by
  obtain ⟨events, rfl, inner⟩ := recorded
  rw [past_append]
  generalize past files before = past
  induction events with
  | nil => rfl
  | cons event rest ih =>
      have same : past.next files event = past := by
        have first := inner event (.head _)
        cases event with
        | line _ _ | prompt _ | command _ _ | result _ => exact first.elim
        | _ => rfl
      rw [List.foldl_cons, same]
      exact ih fun other member => inner other (.tail _ member)

theorem Orderly.of_append {before after : List Event} (orderly : Orderly files (before ++ after)) :
    Orderly files before := by
  rintro first call rest rfl
  exact orderly first call (rest ++ after) (by simp)

end Past

/-! ## Departures -/

/-- Inner events have been recorded; unless a built-in has accepted to leave, neither
the exit code of the last command nor `should_exit` has changed. -/
def Departure (start finish : Shell) : Prop :=
  ∃ events : List Event, finish.control.trace = start.control.trace ++ events ∧
    (∀ event ∈ events, event.Inner) ∧
    ((∀ call, .leave call ∉ events) ∧ finish.lastExitCode = start.lastExitCode ∧
        finish.shouldExit = start.shouldExit ∨
      (∃ call, .leave call ∈ events ∧ isInternalCommand call = true) ∧ finish.shouldExit = true)

instance : Std.Refl Departure where
  refl _ := ⟨[], by simp, by simp, .inl ⟨by simp, rfl, rfl⟩⟩

instance : IsTrans Shell Departure where
  trans := by
    rintro first second third ⟨events, grown, inner, left⟩ ⟨events', grown', inner', left'⟩
    refine ⟨events ++ events', by rw [grown', grown, List.append_assoc], ?_, ?_⟩
    · exact fun event member => (List.mem_append.mp member).elim (inner event) (inner' event)
    · rcases left' with ⟨none', code', flag'⟩ | ⟨⟨call, member, internal⟩, flag'⟩
      · rcases left with ⟨none, code, flag⟩ | ⟨⟨call, member, internal⟩, flag⟩
        · refine .inl ⟨fun call member => ?_, code'.trans code, flag'.trans flag⟩
          exact (List.mem_append.mp member).elim (none call) (none' call)
        · exact .inr ⟨⟨call, List.mem_append_left _ member, internal⟩, flag'.trans flag⟩
      · exact .inr ⟨⟨call, List.mem_append_right _ member, internal⟩, flag'⟩

theorem Departure.ofJobs {start finish : Shell}
    (recorded : Recorded Event.OfJobs start.control.trace finish.control.trace)
    (exitCode : finish.lastExitCode = start.lastExitCode)
    (flag : finish.shouldExit = start.shouldExit) : Departure start finish := by
  obtain ⟨events, grown, ofJobs⟩ := recorded
  exact ⟨events, grown, fun event member => (ofJobs event member).inner,
    .inl ⟨fun call member => ofJobs _ member, exitCode, flag⟩⟩

theorem Left.departure {call : CommandCall} {value : Int} {start finish : Shell}
    (internal : isInternalCommand call = true) (left : Left call value start finish) :
    Departure start finish := by
  obtain ⟨control, course, _, same⟩ := left.control
  obtain ⟨events, grown, ofJobs⟩ := course.recorded
  refine ⟨events ++ [.leave call], by rw [same, grown, List.append_assoc], ?_, ?_⟩
  · intro event member
    rcases List.mem_append.mp member with old | new
    · exact (ofJobs event old).inner
    · cases List.mem_singleton.mp new
      trivial
  · exact .inr ⟨⟨call, by simp, internal⟩, left.shouldExit⟩

theorem ShellMove.departure {added : Job → Prop} {start finish : Shell}
    (moved : ShellMove added start finish) : Departure start finish := by
  cases moved with
  | calm calm => exact .ofJobs calm.course.recorded calm.lastExitCode calm.shouldExit
  | left internal left => exact left.departure internal
  | call call => exact ⟨[.call call], rfl, by simp [Event.Inner], .inl ⟨by simp, rfl, rfl⟩⟩
  | child child => exact ⟨[.child child], rfl, by simp [Event.Inner], .inl ⟨by simp, rfl, rfl⟩⟩
  | kernel _ => exact ⟨[], by simp, by simp, .inl ⟨by simp, rfl, rfl⟩⟩
  | jobs course => exact .ofJobs course.recorded rfl rfl

theorem ShellCourse.departure {added : Job → Prop} {start finish : Shell}
    (course : ShellCourse added start finish) : Departure start finish := by
  induction course with
  | refl => exact refl_of Departure _
  | tail _ moved ih => exact trans_of Departure ih moved.departure

/-! ## Staying and leaving -/

section Run

variable {files : FileOutcomes}

/-- No `exit` has accepted to leave, and the last exit code is that of the last command
unless a segment has been rejected since. -/
structure Staying (files : FileOutcomes) (shell : Shell) : Prop where
  flag : shell.shouldExit = false
  trace : ∀ call, .leave call ∉ shell.control.trace
  exitCode : ¬ (past files shell.control.trace).rejected →
    shell.lastExitCode = (past files shell.control.trace).exitCode

/-- An `exit` has accepted to leave, nothing has been executed since, no job is running
or stopped, and the last exit code is what the `exit` asks for. -/
structure Over (files : FileOutcomes) (shell : Shell) : Prop where
  idle : areJobsRunning shell.control.table = false
  exited : ∃ before call after, shell.control.trace = before ++ .leave call :: after ∧
    (∀ other, .leave other ∉ before) ∧ (∀ event ∈ after, ∃ exitCode, event = .result exitCode) ∧
    (call.argc = 1 ∧ shell.lastExitCode = (past files before).exitCode ∨
      call.argc = 2 ∧ strtoimax (call.argv.getD 1 []) = (shell.lastExitCode, []) ∧
        0 ≤ shell.lastExitCode ∧ shell.lastExitCode ≤ 255)

/-- An `exit` has accepted to leave, with `property` if all of them were orderly. -/
structure Exiting (files : FileOutcomes) (property : Prop) (shell : Shell) : Prop where
  flag : shell.shouldExit = true
  trace : ∃ call, .leave call ∈ shell.control.trace
  orderly : Orderly files shell.control.trace → property

/-- The calm part of a command, and the recording of its exit code. -/
theorem Staying.calm {start finish : Shell} (staying : Staying files start)
    (calm : Calm start finish) : Staying files finish := by
  have same : past files finish.control.trace = past files start.control.trace :=
    past_of_recorded (calm.course.recorded.mono fun _ => Event.OfJobs.inner)
  obtain ⟨events, grown, ofJobs⟩ := calm.course.recorded
  refine ⟨calm.shouldExit.trans staying.flag, fun call member => ?_, ?_⟩
  · rw [grown] at member
    exact (List.mem_append.mp member).elim (staying.trace call) fun new => ofJobs _ new
  · rw [same, calm.lastExitCode]
    exact staying.exitCode

/-- An event that says nothing about the past and accepts no `exit`. -/
theorem Staying.record {start : Shell} (staying : Staying files start) (event : Event)
    (silent : ∀ past : Past, past.next files event = past) (stays : ∀ call, event ≠ .leave call) :
    Ends (Staying files) start (liftJob (record event)) := by
  refine ⟨staying.flag, fun call member => ?_, ?_⟩
  · rcases List.mem_append.mp member with old | new
    · exact staying.trace call old
    · exact stays call (List.mem_singleton.mp new).symm
  · change ¬ (past files (start.control.trace ++ [event])).rejected →
      start.lastExitCode = (past files (start.control.trace ++ [event])).exitCode
    rw [past_single, silent]
    exact staying.exitCode

theorem Staying.departure {start finish : Shell} (staying : Staying files start)
    {events : List Event} (grown : finish.control.trace = start.control.trace ++ events)
    (inner : ∀ event ∈ events, event.Inner) (none : ∀ call, .leave call ∉ events)
    (exitCode : finish.lastExitCode = start.lastExitCode)
    (flag : finish.shouldExit = start.shouldExit) : Staying files finish := by
  have same : past files finish.control.trace = past files start.control.trace :=
    past_of_recorded ⟨events, grown, inner⟩
  refine ⟨flag.trans staying.flag, fun call member => ?_, ?_⟩
  · rw [grown] at member
    exact (List.mem_append.mp member).elim (staying.trace call) (none call)
  · rw [same, exitCode]
    exact staying.exitCode

/-- The end of `execute_command`. -/
def Shell.concluded (shell : Shell) (kernel : Kernel) (exitCode : Int) : Shell :=
  { shell with
    parser := { shell.parser with kernel }
    lastExitCode := exitCode
    control := { shell.control with trace := shell.control.trace ++ [.result exitCode] } }

theorem Staying.concluded {shell : Shell} (staying : Staying files shell) (kernel : Kernel)
    (exitCode : Int) : Staying files (shell.concluded kernel exitCode) := by
  refine ⟨staying.flag, fun call member => ?_, fun _ => ?_⟩
  · rcases List.mem_append.mp member with old | new
    · exact staying.trace call old
    · cases List.mem_singleton.mp new
  · change exitCode = (past files (shell.control.trace ++ [.result exitCode])).exitCode
    rw [past_single]
    rfl

theorem Exiting.concluded {shell : Shell} {property property' : Prop}
    (exiting : Exiting files property shell) (implies : property → property') (kernel : Kernel)
    (exitCode : Int) : Exiting files property' (shell.concluded kernel exitCode) := by
  obtain ⟨call, member⟩ := exiting.trace
  exact ⟨exiting.flag, ⟨call, List.mem_append_left _ member⟩,
    fun orderly => implies (exiting.orderly orderly.of_append)⟩

/-- An `exit` that is accepted inside a command of several calls is not orderly. -/
theorem Exiting.ofDeparture {start finish : Shell} {command : Command}
    {later : List (Option Command)} {events : List Event}
    (executing : (past files start.control.trace).command = some (command, later))
    (several : ∀ call, isInternalCommand call = true → command.commandCalls ≠ [call])
    (grown : finish.control.trace = start.control.trace ++ events)
    (inner : ∀ event ∈ events, event.Inner) {call : CommandCall}
    (member : .leave call ∈ events) (internal : isInternalCommand call = true)
    (flag : finish.shouldExit = true) : Exiting files False finish := by
  refine ⟨flag, ⟨call, by rw [grown]; exact List.mem_append_right _ member⟩, fun orderly => ?_⟩
  obtain ⟨before, after, rfl⟩ := List.append_of_mem member
  obtain ⟨⟨other, current, single⟩, _⟩ :=
    orderly (start.control.trace ++ before) call after (by rw [grown, List.append_assoc])
  rw [past_of_recorded ⟨before, rfl, fun event inside =>
    inner event (List.mem_append_left _ inside)⟩, executing] at current
  cases current
  exact several call internal single

/-- The `exit` of a command that is made of it alone. -/
theorem Left.over {start finish : Shell} {command : Command} {later : List (Option Command)}
    {call : CommandCall} {value : Int} (staying : Staying files start)
    (executing : (past files start.control.trace).command = some (command, later))
    (left : Left call value (start.calling call) finish) (kernel : Kernel) :
    Exiting files (later = [] ∧ Over files (finish.concluded kernel value))
      (finish.concluded kernel value) := by
  obtain ⟨control, course, idle, same⟩ := left.control
  obtain ⟨events, grown, ofJobs⟩ := course.recorded
  have before : Recorded Event.Inner start.control.trace control.trace := by
    refine ⟨.call call :: events, by rw [grown]; exact List.append_assoc _ [_] _, fun event member => ?_⟩
    rcases List.mem_cons.mp member with rfl | inside
    · trivial
    · exact (ofJobs event inside).inner
  have silent : ∀ other, .leave other ∉ control.trace := by
    intro other member
    rw [grown] at member
    rcases List.mem_append.mp member with old | new
    · rcases List.mem_append.mp old with older | here
      · exact staying.trace other older
      · cases List.mem_singleton.mp here
    · exact ofJobs _ new
  have trace : (finish.concluded kernel value).control.trace =
      control.trace ++ .leave call :: [.result value] := by
    change finish.control.trace ++ [.result value] = _
    rw [same]
    exact List.append_assoc _ [_] _
  refine ⟨left.shouldExit, ⟨call, by rw [trace]; simp⟩, fun orderly => ?_⟩
  obtain ⟨⟨other, current, _⟩, clean⟩ := orderly control.trace call _ trace
  rw [past_of_recorded before] at current clean
  rw [executing] at current
  cases current
  refine ⟨rfl, ?_, control.trace, call, [.result value], trace, silent, by simp, ?_⟩
  · change areJobsRunning finish.control.table = false
    rw [same]
    exact idle
  · change call.argc = 1 ∧ value = _ ∨ _
    refine left.argument.imp ?_ fun argument => argument
    rintro ⟨one, last⟩
    refine ⟨one, last.trans ?_⟩
    rw [past_of_recorded before]
    exact staying.exitCode (clean one)

end Run

/-! ## Runs -/

theorem executeCommand_leaving {environment : Environment} {command : Command}
    (later : List (Option Command)) {start : Shell} (staying : Staying environment.files start)
    (executing : (past environment.files start.control.trace).command = some (command, later)) :
    Ends (fun finish => Staying environment.files finish ∨
        Exiting environment.files (later = [] ∧ Over environment.files finish) finish)
      start (executeCommand environment command) := by
  rcases runCommand_eq environment command with ⟨call, _, _, runs⟩ | ⟨several, runs⟩
  · have called : Staying environment.files (start.calling call) :=
      staying.record (.call call) (fun _ => rfl) (by simp)
    unfold executeCommand
    rw [runs]
    refine Ends.bind (fun halt state failed => ?_) fun result state ran => ?_
    · rcases bind_eq_error.mp failed with failed | ⟨_, _, _, impossible⟩
      · exact .inl (called.calm (executeInternalCommand_error failed))
      · cases impossible
    · obtain ⟨value, _, ran, same⟩ := bind_eq_ok.mp ran
      cases same
      rcases executeInternalCommand_ok ran with calm | ⟨_, left⟩
      · exact .inl ((called.calm calm).concluded _ value)
      · exact .inr (left.over staying executing _)
  · have course : ∀ state : Shell, Departure start state → Staying environment.files state ∨
        Exiting environment.files False state := by
      rintro state ⟨events, grown, inner, ⟨none, exitCode, flag⟩ | ⟨⟨call, member, internal⟩, flag⟩⟩
      · exact .inl (staying.departure grown inner none exitCode flag)
      · exact .inr (.ofDeparture executing several grown inner member internal flag)
    have moves := executeExternalCommand_moves environment command start
    unfold executeCommand
    rw [runs]
    refine Ends.bind (fun halt state failed => ?_) fun result state ran => ?_
    · exact (course state (moves.of_error failed).departure).imp_right fun exiting =>
        ⟨exiting.flag, exiting.trace, fun orderly => (exiting.orderly orderly).elim⟩
    · rcases course state (moves.of_ok ran).departure with stays | exiting
      · exact .inl (stays.concluded _ _)
      · exact .inr (exiting.concluded False.elim _ _)

/-- The trace grows and `should_exit` stays set. -/
structure Onward (start finish : Shell) : Prop where
  trace : start.control.trace <+: finish.control.trace
  flag : start.shouldExit = true → finish.shouldExit = true

instance : Std.Refl Onward where
  refl _ := ⟨List.prefix_refl _, id⟩

instance : IsTrans Shell Onward where
  trans _ _ _ before after :=
    ⟨before.trace.trans after.trace, fun set => after.flag (before.flag set)⟩

theorem Departure.onward {start finish : Shell} (departure : Departure start finish) :
    Onward start finish := by
  obtain ⟨events, grown, _, left⟩ := departure
  refine ⟨⟨events, grown.symm⟩, fun set => ?_⟩
  rcases left with ⟨_, _, same⟩ | ⟨_, set'⟩
  · exact same.trans set
  · exact set'

theorem executeCommand_onward (environment : Environment) (command : Command) :
    Moves Onward (executeCommand environment command) := by
  have runs : Moves Onward (runCommand environment command) :=
    (runCommand_moves environment command).mono fun _ _ course => course.departure.onward
  exact runs.bind fun result => show Moves Onward _ from
    fun state => ⟨⟨[.result result.exitCode], rfl⟩, id⟩

theorem executeCommands_onward (environment : Environment) (commands : List (Option Command)) :
    Moves Onward (executeCommands environment commands) := by
  induction commands with
  | nil => exact .pure _
  | cons entry later ih =>
      cases entry with
      | none => exact .throw _
      | some command =>
          have recorded : Moves Onward (liftJob (record (.command command later))) :=
            fun state => ⟨⟨[.command command later], rfl⟩, id⟩
          exact recorded.bind fun _ => (executeCommand_onward environment command).bind fun _ => ih

theorem executeCommands_leaving {environment : Environment} (commands : List (Option Command)) :
    ∀ {start : Shell}, Staying environment.files start →
      Ends (fun finish => Staying environment.files finish ∨
          Exiting environment.files (Over environment.files finish) finish)
        start (executeCommands environment commands) := by
  induction commands with
  | nil => exact fun staying => .inl staying
  | cons entry later ih =>
      intro start staying
      cases entry with
      | none => exact .inl staying
      | some command =>
          let begun : Shell := { start with control := { start.control with
            trace := start.control.trace ++ [.command command later] } }
          have current : past environment.files begun.control.trace =
              { past environment.files start.control.trace with command := some (command, later) } :=
            past_single _ _
          have begins : Staying environment.files begun := by
            refine ⟨staying.flag, fun call member => ?_, ?_⟩
            · rcases List.mem_append.mp member with old | new
              · exact staying.trace call old
              · cases List.mem_singleton.mp new
            · rw [current]
              exact staying.exitCode
          have ran := executeCommand_leaving later begins (by rw [current])
          change Ends (fun finish => Staying environment.files finish ∨
              Exiting environment.files (Over environment.files finish) finish)
            begun (executeCommand environment command >>= fun _ => executeCommands environment later)
          refine Ends.bind (fun halt state failed => ?_) fun result state executed => ?_
          · exact (ran.of_error failed).imp_right fun exiting =>
              ⟨exiting.flag, exiting.trace, fun orderly => (exiting.orderly orderly).2⟩
          · rcases ran.of_ok executed with stays | exiting
            · exact ih stays
            · cases later with
              | nil => exact .inr ⟨exiting.flag, exiting.trace, fun orderly =>
                  (exiting.orderly orderly).2⟩
              | cons next others =>
                  have onward := executeCommands_onward environment (next :: others) state
                  obtain ⟨call, member⟩ := exiting.trace
                  obtain ⟨events, grown⟩ := onward.trace
                  refine .inr ⟨onward.flag exiting.flag, ⟨call, onward.trace.subset member⟩,
                    fun orderly => ?_⟩
                  rw [← grown] at orderly
                  exact absurd (exiting.orderly orderly.of_append).1 (by simp)

theorem readLine_staying {environment : Environment} (line : CString) {start : Shell}
    (staying : Staying environment.files start) :
    Ends (Staying environment.files) start (readLine environment line) := by
  have current : past environment.files (start.control.trace ++ [.line line start.parser]) =
      (past environment.files start.control.trace).next environment.files
        (.line line start.parser) := past_single _ _
  refine ⟨staying.flag, fun call member => ?_, fun clean => ?_⟩
  · rcases List.mem_append.mp member with old | new
    · exact staying.trace call old
    · cases List.mem_singleton.mp new
  · change ¬ (past environment.files (start.control.trace ++ [.line line start.parser])).rejected
      at clean
    change (parseReadLine environment.files line start.parser start.lastExitCode).lastExitCode =
      (past environment.files (start.control.trace ++ [.line line start.parser])).exitCode
    rw [current] at clean ⊢
    obtain ⟨before, accepted⟩ := not_or.mp clean
    rw [parseReadLine_lastExitCode (not_exists.mp accepted)]
    exact staying.exitCode before

theorem promptTurn_leaving {environment : Environment} (input : Option CString) {start : Shell}
    (staying : Staying environment.files start) :
    Ends (fun finish => Staying environment.files finish ∨
        Exiting environment.files (Over environment.files finish) finish)
      start (promptTurn environment input) := by
  have updates := liftJob_moves (updateJobs_moves environment) start
  refine Ends.bind (fun _ _ failed => .inl (staying.calm (updates.of_error failed)))
    fun _ updated update => ?_
  have stays := staying.calm (updates.of_ok update)
  have prompts := getPromptString_moves environment updated
  refine Ends.bind (fun _ _ failed => .inl (stays.calm (prompts.of_error failed)))
    fun text prompted ran => ?_
  have shown := (stays.calm (prompts.of_ok ran)).record (.prompt text) (fun _ => rfl) (by simp)
  refine Ends.bind (fun _ _ failed => .inl (shown.of_error failed)) fun _ displayed ran => ?_
  have reads := readLine_staying (input.getD "exit".toList) (shown.of_ok ran)
  refine Ends.bind (fun _ _ failed => .inl (reads.of_error failed)) fun commands read ran => ?_
  cases commands with
  | none => exact .inl (reads.of_ok ran)
  | some commands => exact executeCommands_leaving commands (reads.of_ok ran)

theorem prompt_leaving {environment : Environment} (inputs : List (Option CString)) :
    ∀ {start : Shell}, Staying environment.files start ∨
        Exiting environment.files (Over environment.files start) start →
      Ends (fun finish => Staying environment.files finish ∨
          Exiting environment.files (Over environment.files finish) finish)
        start (prompt environment inputs) := by
  induction inputs with
  | nil => exact fun reached => reached
  | cons input rest ih =>
      intro start reached
      unfold prompt
      rw [ends_get]
      split
      · exact reached
      · next going =>
        have staying := reached.resolve_right fun exiting => going exiting.flag
        have turn := promptTurn_leaving input staying
        exact Ends.bind (fun _ _ failed => turn.of_error failed) fun _ state ran =>
          ih (turn.of_ok ran)

theorem main_leaving (environment : Environment) (cwd : CString) (inputs : List (Option CString)) :
    let final := finalState (main environment inputs (initInternals cwd))
    (Staying environment.files final ∨
        Exiting environment.files (Over environment.files final) final) ∧
      ∀ value state, main environment inputs (initInternals cwd) = .ok value state →
        value = final.lastExitCode := by
  intro final
  have started : Staying environment.files (initInternals cwd) :=
    ⟨rfl, by simp [initInternals], fun _ => rfl⟩
  have ran := prompt_leaving inputs (.inl started)
  constructor
  · exact Ends.bind (fun _ _ failed => ran.of_error failed) fun _ _ returned => ran.of_ok returned
  · intro value state returned
    have ended : final = state := by
      simp only [final, returned, finalState]
    obtain ⟨_, _, _, read⟩ := bind_eq_ok.mp returned
    rw [ended]
    cases read
    rfl

/-- In a run where every `exit` that is accepted is the only call of its command, the
command is the last one of its line, and without argument no segment has been rejected
since the last command, nothing is executed after the shell has accepted to leave: no
job is running or stopped when the loop has ended, and the value returned is the one
`exit` asks for. -/
theorem leaving_run (environment : Environment) (cwd : CString) (inputs : List (Option CString)) :
    let final := finalState (main environment inputs (initInternals cwd))
    Orderly environment.files final.control.trace →
      ((∃ call, .leave call ∈ final.control.trace) ↔ final.shouldExit = true) ∧
      (final.shouldExit = true → areJobsRunning final.control.table = false ∧
        ∃ before call after, final.control.trace = before ++ .leave call :: after ∧
          (∀ event ∈ after, ∃ exitCode, event = .result exitCode) ∧
          ∀ value state, main environment inputs (initInternals cwd) = .ok value state →
            call.argc = 1 ∧ value = (past environment.files before).exitCode ∨
              call.argc = 2 ∧ strtoimax (call.argv.getD 1 []) = (value, []) ∧
                0 ≤ value ∧ value ≤ 255) := by
  intro final orderly
  obtain ⟨ended, returns⟩ := main_leaving environment cwd inputs
  rcases ended with staying | exiting
  · refine ⟨⟨fun ⟨call, member⟩ => absurd member (staying.trace call), fun set => ?_⟩, fun set => ?_⟩
    · rw [staying.flag] at set
      cases set
    · rw [staying.flag] at set
      cases set
  · obtain ⟨idle, before, call, after, trace, _, nothing, argument⟩ := exiting.orderly orderly
    refine ⟨⟨fun _ => exiting.flag, fun _ => exiting.trace⟩, fun _ =>
      ⟨idle, before, call, after, trace, nothing, fun value state returned => ?_⟩⟩
    rw [returns value state returned]
    exact argument

/-- Each accepted `exit` has an argument and is the only call of the last command of its
line. -/
def leavesAlone (files : FileOutcomes) (events : List Event) : Bool :=
  (List.range events.length).all fun index =>
    match events[index]?, (past files (events.take index)).command with
    | some (.leave call), some (command, later) =>
        later == [] && command.commandCalls == [call] && call.argc != 1
    | some (.leave _), none => false
    | _, _ => true

theorem orderly_of_leavesAlone {files : FileOutcomes} {trace : List Event}
    (alone : leavesAlone files trace = true) : Orderly files trace := by
  rintro before call after rfl
  have here := List.all_eq_true.mp alone before.length (by simp)
  have entry : (before ++ .leave call :: after)[before.length]? = some (.leave call) := by simp
  have earlier : (before ++ .leave call :: after).take before.length = before := by simp
  rw [entry, earlier] at here
  cases current : (past files before).command with
  | none => simp [current] at here
  | some executing =>
      obtain ⟨command, later⟩ := executing
      simp only [current, Bool.and_eq_true, beq_iff_eq, bne_iff_ne] at here
      obtain ⟨⟨rfl, single⟩, several⟩ := here
      exact ⟨⟨command, rfl, single⟩, fun one => absurd one several⟩

/-- `exit 3` after a command makes the shell return 3. -/
theorem exit_after_command_returns_argument :
    let final := finalState (main .exiting [some "pwd".toList, some "exit 3".toList]
      (initInternals "/".toList))
    final.shouldExit = true ∧ areJobsRunning final.control.table = false := by
  intro final
  have orderly : Orderly Environment.exiting.files final.control.trace :=
    orderly_of_leavesAlone (by decide +kernel)
  have left : final.shouldExit = true := by decide +kernel
  exact ⟨left, ((leaving_run .exiting "/".toList [some "pwd".toList, some "exit 3".toList]
    orderly).2 left).1⟩

/-- In `exit 3 & pwd` the command after the accepted `exit` is executed, and the value
returned is its exit code. -/
theorem command_after_exit_runs :
    let final := finalState (main .exiting [some "exit 3 & pwd".toList] (initInternals "/".toList))
    let exit := newCommandCall ["exit".toList, "3".toList] "exit 3".toList
    let pwd := newCommandCall ["pwd".toList] "pwd".toList
    (∃ before after, final.control.trace = before ++ .leave exit :: after ∧ .call pwd ∈ after) ∧
      final.lastExitCode = 0 := by
  intro final exit pwd
  have split : final.control.trace =
      final.control.trace.take 4 ++ .leave exit :: final.control.trace.drop 5 := by
    decide +kernel
  exact ⟨⟨_, _, split, by decide +kernel⟩, by decide +kernel⟩

end Jsh
