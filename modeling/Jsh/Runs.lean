import Jsh.ShellMoves
import Jsh.Prompt

/-!
# Runs of the prompt loop

A relation that the parts of an iteration of the loop keep to relates the ends of every run.
-/

set_option autoImplicit false

namespace Jsh

open Library

theorem getPromptString_of_getCurrentWd {environment : Environment}
    {relation : Shell → Shell → Prop} [Std.Refl relation] [IsTrans Shell relation]
    (current : Moves relation (getCurrentWd environment)) :
    Moves relation (getPromptString environment) := by
  refine Moves.get.bind fun shell => ?_
  refine current.bind fun pwd => ?_
  have ended : ∀ text : CString, Moves relation
      (if pwd.2 then pure text else throw .crashed : ShellAction CString) := by
    intro text
    split
    · exact .pure _
    · exact .throw _
  dsimp only
  split
  · exact current.bind fun _ => ended _
  · exact ended _

theorem ShellSteps.getPromptString {environment : Environment} {relation : Shell → Shell → Prop}
    [Std.Refl relation] [IsTrans Shell relation] (steps : ShellSteps environment relation) :
    Moves relation (getPromptString environment) :=
  getPromptString_of_getCurrentWd steps.getCurrentWd

theorem getPromptString_moves (environment : Environment) :
    Moves Calm (getPromptString environment) := (Calm.steps environment).getPromptString

/-- The events of the loops over the lines and over the commands of a line. -/
def Event.OfLoop : Event → Prop
  | .prompt _ | .command _ _ => True
  | _ => False

/-- The state after an event. -/
def Shell.recording (shell : Shell) (event : Event) : Shell :=
  { shell with control := { shell.control with trace := shell.control.trace ++ [event] } }

section Loop

variable {environment : Environment} {relation : Shell → Shell → Prop} [Std.Refl relation]
  [IsTrans Shell relation]

/-- The state after the exit code of a command has been kept. -/
def Shell.kept (shell : Shell) (exitCode : Int) : Shell :=
  { shell.recording (.result exitCode) with lastExitCode := exitCode }

theorem executeCommand_ends {command : Command} {start : Shell}
    (ran : Ends (relation start) start (runCommand environment command))
    (kernel : ∀ (kernel : Kernel) (shell : Shell),
      relation shell { shell with parser := { shell.parser with kernel } })
    (kept : ∀ (exitCode : Int) (shell : Shell), relation shell (shell.kept exitCode)) :
    Ends (relation start) start (executeCommand environment command) := by
  refine Ends.seq ran fun result state _ => ?_
  have closed : Moves relation
      (modifyKernel (closeUnusedFileDescriptors command.commandCalls command.openPipes)) :=
    .modify fun shell => kernel _ shell
  have updated : Moves relation (updateCommandHistory result) :=
    fun shell => kept result.exitCode shell
  exact (closed.bind fun _ => updated.bind fun _ => .pure _) state

theorem executeCommands_moves
    (event : ∀ (event : Event) (start : Shell), event.OfLoop →
      relation start (start.recording event))
    (execute : ∀ (command : Command) (later : List (Option Command)) (start : Shell),
      Ends (relation (start.recording (.command command later)))
        (start.recording (.command command later)) (executeCommand environment command))
    (commands : List (Option Command)) : Moves relation (executeCommands environment commands) := by
  induction commands with
  | nil => exact .pure _
  | cons entry later ih =>
      cases entry with
      | none => exact .throw _
      | some command =>
          intro start
          have recorded : Moves relation (liftJob (record (.command command later))) :=
            fun start => event (.command command later) start trivial
          refine Ends.seq (recorded start) fun _ state recorded => ?_
          cases recorded
          exact Ends.seq (execute command later start) fun _ state _ => ih state

/-- What the parts of an iteration relate, every run of the loop relates. -/
theorem prompt_loops (update : Moves relation (liftJob (updateJobs environment)))
    (prompts : Moves relation (getPromptString environment))
    (event : ∀ (event : Event) (start : Shell), event.OfLoop →
      relation start (start.recording event))
    (read : ∀ line : CString, Moves relation (readLine environment line))
    (execute : ∀ (command : Command) (later : List (Option Command)) (start : Shell),
      Ends (relation (start.recording (.command command later)))
        (start.recording (.command command later)) (executeCommand environment command))
    (inputs : List (Option CString)) : Moves relation (prompt environment inputs) := by
  have turn : ∀ input, Moves relation (promptTurn environment input) := by
    intro input
    refine update.bind fun _ => ?_
    refine prompts.bind fun text => ?_
    have shown : Moves relation (liftJob (record (.prompt text))) :=
      fun start => event (.prompt text) start trivial
    refine shown.bind fun _ => ?_
    refine (read _).bind fun commands => ?_
    cases commands with
    | none => exact .pure _
    | some commands => exact executeCommands_moves event execute commands
  induction inputs with
  | nil => exact .pure _
  | cons input rest ih =>
      refine Moves.get.bind fun shell => ?_
      split
      · exact .pure _
      · exact (turn input).bind fun _ => ih

theorem prompt_moves (steps : ShellSteps environment relation)
    (event : ∀ (event : Event) (start : Shell), event.OfLoop →
      relation start (start.recording event))
    (read : ∀ line : CString, Moves relation (readLine environment line))
    (execute : ∀ (command : Command) (later : List (Option Command)) (start : Shell),
      Ends (relation (start.recording (.command command later)))
        (start.recording (.command command later)) (executeCommand environment command))
    (inputs : List (Option CString)) : Moves relation (prompt environment inputs) :=
  prompt_loops (liftJob_lifted steps.jobs.updateJobs) steps.getPromptString event read execute
    inputs

end Loop

end Jsh
