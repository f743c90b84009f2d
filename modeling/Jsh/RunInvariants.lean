import Jsh.Foreground
import Jsh.Inheritance
import Jsh.Runs

/-!
# Invariants of the runs that return

A property of the state of job control that the parts of a run keep to, each as far as it
returns, holds whenever the shell is about to read a line.
-/

set_option autoImplicit false

namespace Jsh

open Library

/-- The property is not lost. -/
def Preserves (property : Control → Prop) (start finish : Control) : Prop :=
  property start → property finish

section Preserves

variable {property : Control → Prop}

instance : Std.Refl (Preserves property) where
  refl _ := id

instance : IsTrans Control (Preserves property) where
  trans _ _ _ before after holds := after (before holds)

end Preserves

/-- A property that job control, the other events and the commands that are no single
built-in keep to. -/
structure RunInvariant (environment : Environment) (property : Control → Prop) : Prop where
  jobs : JobSteps environment (Preserves property)
  event : ∀ (event : Event) {start finish : Control}, event.Childless → property start →
    finish.table = start.table → finish.trace = start.trace ++ [event] → property finish
  external : ∀ {command : Command} {result : CommandResult} {start finish : Shell},
    executeExternalCommand environment command start = .ok result finish →
    property start.control → property finish.control

namespace RunInvariant

variable {environment : Environment} {property : Control → Prop}

theorem executeInternalCommand (jobs : JobSteps environment (Preserves property))
    (event : ∀ (event : Event) {start finish : Control}, event.Childless → property start →
      finish.table = start.table → finish.trace = start.trace ++ [event] → property finish)
    (call : CommandCall) :
    Moves (OnControl (Preserves property)) (executeInternalCommand environment call) := by
  apply jobs.onControl.executeInternalCommand
  · exact fun _ holds => event (.call call) trivial holds rfl rfl
  · exact fun _ _ holds => event (.leave call) trivial holds rfl rfl

variable (invariant : RunInvariant environment property)

include invariant

theorem executeCommand {command : Command} {result : CommandResult} {start finish : Shell}
    (ran : executeCommand environment command start = .ok result finish)
    (holds : property start.control) : property finish.control := by
  obtain ⟨result', executed, runs, ran⟩ := bind_eq_ok.mp ran
  have after : property executed.control := by
    rcases runCommand_eq environment command with ⟨call, _, _, same⟩ | ⟨_, same⟩
    · rw [same] at runs
      obtain ⟨_, _, internal, runs⟩ := bind_eq_ok.mp runs
      cases runs
      exact (RunInvariant.executeInternalCommand invariant.jobs invariant.event call start).of_ok
        internal holds
    · rw [same] at runs
      exact invariant.external runs holds
  cases ran
  exact invariant.event (.result result.exitCode) trivial after rfl rfl

theorem executeCommands (entries : List (Option Command)) :
    ∀ {start finish : Shell}, executeCommands environment entries start = .ok ⟨⟩ finish →
      property start.control → property finish.control := by
  induction entries with
  | nil =>
      intro start finish ran holds
      cases ran
      exact holds
  | cons entry later ih =>
      intro start finish ran holds
      cases entry with
      | none => cases ran
      | some command =>
          obtain ⟨_, _, recorded, ran⟩ := bind_eq_ok.mp ran
          cases recorded
          obtain ⟨result, middle, executed, ran⟩ := bind_eq_ok.mp ran
          refine ih ran (invariant.executeCommand executed ?_)
          exact invariant.event (.command command later) trivial holds rfl rfl

theorem promptTurn {input : Option CString} {start finish : Shell}
    (ran : promptTurn environment input start = .ok ⟨⟩ finish) (holds : property start.control) :
    property finish.control := by
  have steps := invariant.jobs.onControl
  obtain ⟨_, updated, update, ran⟩ := bind_eq_ok.mp ran
  have first := (liftJob_lifted steps.jobs.updateJobs start).of_ok update holds
  obtain ⟨text, prompted, shown, ran⟩ := bind_eq_ok.mp ran
  have second := (steps.getPromptString updated).of_ok shown first
  obtain ⟨_, _, recorded, ran⟩ := bind_eq_ok.mp ran
  cases recorded
  obtain ⟨commands, parsed, read, ran⟩ := bind_eq_ok.mp ran
  have third : property parsed.control := by
    obtain ⟨_, _, got, read⟩ := bind_eq_ok.mp read
    cases got
    obtain ⟨_, _, recorded, read⟩ := bind_eq_ok.mp read
    cases recorded
    cases read
    let shown : Control :=
      { prompted.control with trace := prompted.control.trace ++ [.prompt text] }
    have prompt : property shown := invariant.event (.prompt text) trivial second rfl rfl
    exact invariant.event (.line (input.getD "exit".toList) _) trivial prompt rfl rfl
  cases commands with
  | none =>
      cases ran
      exact third
  | some entries => exact invariant.executeCommands entries ran third

theorem prompt (inputs : List (Option CString)) :
    ∀ {start finish : Shell}, prompt environment inputs start = .ok ⟨⟩ finish →
      property start.control → property finish.control := by
  induction inputs with
  | nil =>
      intro start finish ran holds
      cases ran
      exact holds
  | cons input rest ih =>
      intro start finish ran holds
      unfold Jsh.prompt at ran
      obtain ⟨_, _, got, ran⟩ := bind_eq_ok.mp ran
      cases got
      split at ran
      · cases ran
        exact holds
      · obtain ⟨_, middle, turn, ran⟩ := bind_eq_ok.mp ran
        exact ih ran (invariant.promptTurn turn holds)

end RunInvariant

/-- What follows the launch of a command is job control. -/
theorem executeExternalCommand_launched {environment : Environment} {command : Command}
    {info : InternalExitInfo} {job : Job} {result : CommandResult} {start launched finish : Shell}
    (launch : executeAsJob environment command (setupJob command) start =
      .ok (some info, job) launched)
    (ran : executeExternalCommand environment command start = .ok result finish) :
    Course (fun _ => True) launched.control finish.control := by
  unfold executeExternalCommand at ran
  rw [bind_of_ok launch] at ran
  obtain ⟨_, closed, closing, ran⟩ := bind_eq_ok.mp ran
  have same : closed.control = launched.control := by
    cases closing
    rfl
  rw [← same]
  have keeps : ∀ job, Moves (OnControl (Course fun _ => True)) (liftJob (keepJob info job)) :=
    fun job => liftJob_onControl (keepJob_moves trivial info)
  dsimp only at ran
  split at ran
  · exact (keeps job _).of_ok ran
  · obtain ⟨⟨exitCode, job'⟩, waited, waits, ran⟩ := bind_eq_ok.mp ran
    have first : Course (fun _ => True) closed.control waited.control :=
      (liftJob_onControl (Course.ofQuiet (blockingWaitForJob_moves environment job)) _).of_ok waits
    obtain ⟨given, returned, gives, ran⟩ := bind_eq_ok.mp ran
    have second : Course (fun _ => True) waited.control returned.control :=
      (liftJob_onControl (Course.ofQuiet (tcsetpgrp_moves environment _)) _).of_ok gives
    refine (first.trans second).trans ?_
    dsimp only at ran
    split at ran
    · cases ran
    split at ran
    · cases ran
      exact .refl
    split at ran
    · cases ran
      exact .refl
    · exact (keeps job' _).of_ok ran

end Jsh
