import Jsh.JobTable
import Jsh.Prompt
import Jsh.ShellMoves

/-!
# The working directory

What runs of `cd` make of the working directory and of `lwd`, which is written before
`chdir` has succeeded.
-/

set_option autoImplicit false

namespace Jsh

open Library

/-! ## One `cd` -/

/-- `set_new_cwd`, called after `count` system calls, gets as far as `chdir`. -/
structure ReachesChdir (environment : Environment) (count : Nat) (path : CString) : Prop where
  directory : environment.stat count path = .directory
  current : environment.getcwdError (count + 1) = none

/-- The ways in which `set_new_cwd` ends. -/
inductive Enters (environment : Environment) (path : CString) (start finish : Shell) : Bool → Prop
  | entered (directory : CString) (reaches : ReachesChdir environment start.control.calls path)
      (changed : environment.chdir (start.control.calls + 2) start.cwd path = .ok directory)
      (cwd : finish.cwd = directory) (lwd : finish.lwd = start.cwd) :
      Enters environment path start finish true
  | refused (text : CString) (reaches : ReachesChdir environment start.control.calls path)
      (failed : environment.chdir (start.control.calls + 2) start.cwd path = .error text)
      (cwd : finish.cwd = start.cwd) (lwd : finish.lwd = start.cwd) :
      Enters environment path start finish false
  | kept (short : ¬ ReachesChdir environment start.control.calls path)
      (cwd : finish.cwd = start.cwd) (lwd : finish.lwd = start.lwd) :
      Enters environment path start finish false

theorem isValidTargetDir_run (environment : Environment) (path : CString) (callStderr : Int)
    (start : Control) :
    ∃ finish, isValidTargetDir environment path callStderr start =
        .ok (decide (environment.stat start.calls path = .directory)) finish ∧
      finish.calls = start.calls + 1 := by
  have asked : outcome (fun count => environment.stat count path) start =
      .ok (environment.stat start.calls path) { start with calls := start.calls + 1 } := rfl
  have checked : isValidPath environment path callStderr start = _ := bind_of_ok asked
  rw [isValidTargetDir]
  cases found : environment.stat start.calls path <;> rw [found] at checked <;>
    exact ⟨_, bind_of_ok checked, rfl⟩

theorem setNewCwd_enters (environment : Environment) (path : CString) (callStderr : Int)
    (start : Shell) :
    ∃ value finish, setNewCwd environment path callStderr start = .ok value finish ∧
      Enters environment path start finish value := by
  obtain ⟨checked, ran, counted⟩ :=
    isValidTargetDir_run environment path callStderr start.control
  have checks : liftJob (isValidTargetDir environment path callStderr) start =
      .ok _ { start with control := checked } := liftJob_eq_ok.mpr ⟨checked, ran, rfl⟩
  have asks := getcwd_run environment { start with control := checked }
  rw [Shell.called, counted] at asks
  rw [setNewCwd, bind_of_ok checks]
  by_cases directory : environment.stat start.control.calls path = .directory
  · simp only [directory, decide_true, Bool.not_true, Bool.false_eq_true, if_false]
    rw [bind_of_ok asks]
    cases current : environment.getcwdError (start.control.calls + 1) with
    | some text =>
        have short : ¬ ReachesChdir environment start.control.calls path := by
          intro reaches
          rw [reaches.current] at current
          cases current
        exact ⟨false, _, rfl, .kept short rfl rfl⟩
    | none =>
        have reaches : ReachesChdir environment start.control.calls path := ⟨directory, current⟩
        have moved : liftJob (outcome fun count => environment.chdir count start.cwd path)
            { start with
              control := { checked with calls := start.control.calls + 1 + 1 }
              lwd := start.cwd } =
              .ok (environment.chdir (start.control.calls + 2) start.cwd path) _ := rfl
        cases changed : environment.chdir (start.control.calls + 2) start.cwd path with
        | error text =>
            rw [changed] at moved
            exact ⟨false, _, (bind_of_ok (modify_apply _ _)).trans (bind_of_ok moved),
              .refused text reaches changed rfl rfl⟩
        | ok entered =>
            rw [changed] at moved
            exact ⟨true, _, (bind_of_ok (modify_apply _ _)).trans (bind_of_ok moved),
              .entered entered reaches changed rfl rfl⟩
  · simp only [directory, decide_false, Bool.not_false, if_true]
    exact ⟨false, _, rfl, .kept (fun reaches => directory reaches.directory) rfl rfl⟩

/-- `cd -` -/
def AsksBack (call : CommandCall) : Prop := call.argc = 2 ∧ call.argv.getD 1 [] = ['-']

instance (call : CommandCall) : Decidable (AsksBack call) := inferInstanceAs (Decidable (_ ∧ _))

/-- The path `cd` hands to `set_new_cwd`, and the number of system calls made before. -/
def cdTarget (environment : Environment) (start : Shell) (call : CommandCall) :
    Option (CString × Nat) :=
  if call.argc = 1 then environment.home.map (·, start.control.calls)
  else if AsksBack call then
    if isLwdSet start.lwd then some (start.lwd, start.control.calls)
    else if environment.getcwdError start.control.calls = none then
      some (start.cwd, start.control.calls + 1)
    else none
  else if call.argc = 2 then some (call.argv.getD 1 [], start.control.calls)
  else none

/-- The `chdir` of this `cd` is made and fails. -/
def ChdirFails (environment : Environment) (start : Shell) (call : CommandCall) : Prop :=
  ∃ path count text, cdTarget environment start call = some (path, count) ∧
    ReachesChdir environment count path ∧
    environment.chdir (count + 2) start.cwd path = .error text

/-- The ways in which `cd` ends, by its return value. -/
inductive CdEnds (environment : Environment) (call : CommandCall) (start finish : Shell) :
    Int → Prop
  | entered (path : CString) (count : Nat)
      (target : cdTarget environment start call = some (path, count))
      (changed : environment.chdir (count + 2) start.cwd path = .ok finish.cwd)
      (lwd : finish.lwd = start.cwd) : CdEnds environment call start finish 0
  | refused (fails : ChdirFails environment start call) (cwd : finish.cwd = start.cwd)
      (lwd : finish.lwd = start.cwd) : CdEnds environment call start finish 1
  | kept (works : ¬ ChdirFails environment start call) (cwd : finish.cwd = start.cwd)
      (lwd : finish.lwd = start.lwd) : CdEnds environment call start finish 1

/-- What `set_new_cwd` does to the shell is what the `cd` that calls it does. -/
theorem cdEnds_of_enters {environment : Environment} {call : CommandCall} {path : CString}
    {start middle finish : Shell} {value : Bool} (cwd : middle.cwd = start.cwd)
    (lwd : middle.lwd = start.lwd)
    (target : cdTarget environment start call = some (path, middle.control.calls))
    (enters : Enters environment path middle finish value) :
    CdEnds environment call start finish (exitCodeOf value) := by
  cases enters with
  | entered directory reaches changed entered left =>
      apply CdEnds.entered path middle.control.calls target
      · rw [← cwd, changed, entered]
      · rw [left, cwd]
  | refused text reaches failed stayed left =>
      rw [cwd] at failed stayed left
      exact .refused ⟨path, _, text, target, reaches, failed⟩ stayed left
  | kept short stayed left =>
      apply CdEnds.kept
      · rintro ⟨path', count, text, target', reaches, _⟩
        cases target.symm.trans target'
        exact short reaches
      · rw [stayed, cwd]
      · rw [left, lwd]

theorem cdEnds_of_no_target {environment : Environment} {call : CommandCall}
    {start finish : Shell} (none : cdTarget environment start call = none)
    (cwd : finish.cwd = start.cwd) (lwd : finish.lwd = start.lwd) :
    CdEnds environment call start finish 1 := by
  apply CdEnds.kept _ cwd lwd
  rintro ⟨path, count, text, target, _⟩
  rw [none] at target
  cases target

/-- `cd` calls `set_new_cwd` on its target if it has one. -/
theorem cd_eq (environment : Environment) (call : CommandCall) (start : Shell) :
    (∃ path middle, middle.cwd = start.cwd ∧ middle.lwd = start.lwd ∧
        cdTarget environment start call = some (path, middle.control.calls) ∧
        cd environment call start = (do
          return exitCodeOf (← setNewCwd environment path call.stderr) : ShellAction Int) middle) ∨
      cdTarget environment start call = none ∧
        ∃ finish, cd environment call start = .ok 1 finish ∧ finish.cwd = start.cwd ∧
          finish.lwd = start.lwd := by
  rw [cd]
  by_cases alone : call.argc = 1
  · simp only [alone, if_true]
    cases home : environment.home with
    | none => exact .inr ⟨by simp [cdTarget, alone, home], _, rfl, rfl, rfl⟩
    | some path => exact .inl ⟨path, start, rfl, rfl, by simp [cdTarget, alone, home], rfl⟩
  · simp only [alone, if_false]
    by_cases back : AsksBack call
    · simp only [show call.argc = 2 ∧ call.argv.getD 1 [] = ['-'] from back, and_self, if_true]
      rw [bind_of_ok (get_apply start)]
      by_cases known : isLwdSet start.lwd = true
      · simp only [known, if_true]
        rw [bind_of_ok (get_apply start)]
        exact .inl ⟨_, start, rfl, rfl, by simp [cdTarget, alone, back, known], rfl⟩
      · simp only [known, Bool.false_eq_true, if_false]
        rw [bind_of_ok (getcwd_run environment start)]
        cases current : environment.getcwdError start.control.calls with
        | some text =>
            exact .inr ⟨by simp [cdTarget, alone, back, known, current], _, rfl, rfl, rfl⟩
        | none =>
            exact .inl ⟨start.cwd, start.called, rfl, rfl,
              by simp [cdTarget, alone, back, known, current, Shell.called], rfl⟩
    · simp only [show ¬ (call.argc = 2 ∧ call.argv.getD 1 [] = ['-']) from back, if_false]
      by_cases named : call.argc = 2
      · simp only [named, if_true]
        exact .inl ⟨_, start, rfl, rfl, by simp [cdTarget, back, named], rfl⟩
      · simp only [named, if_false]
        exact .inr ⟨by simp [cdTarget, alone, back, named], _, rfl, rfl, rfl⟩

theorem cd_ends (environment : Environment) (call : CommandCall) (start : Shell) :
    ∃ code finish, cd environment call start = .ok code finish ∧
      CdEnds environment call start finish code := by
  cases cd_eq environment call start with
  | inl passes =>
      obtain ⟨path, middle, cwd, lwd, target, same⟩ := passes
      obtain ⟨value, finish, ran, enters⟩ :=
        setNewCwd_enters environment path call.stderr middle
      exact ⟨exitCodeOf value, finish, same.trans (bind_of_ok ran),
        cdEnds_of_enters cwd lwd target enters⟩
  | inr aimless =>
      obtain ⟨none, finish, ran, cwd, lwd⟩ := aimless
      exact ⟨1, finish, ran, cdEnds_of_no_target none cwd lwd⟩

/-! ## Sequences of `cd` -/

/-- A `cd` between two states of the shell, with its return value. -/
structure CdStep where
  before : Shell
  call : CommandCall
  code : Int
  after : Shell

/-- The commands are executed one after another. -/
inductive CdRun (environment : Environment) (start : Shell) : List CdStep → Shell → Prop
  | nil : CdRun environment start [] start
  | snoc {steps : List CdStep} {before after : Shell} {call : CommandCall} {code : Int}
      (run : CdRun environment start steps before)
      (ran : cd environment call before = .ok code after) :
      CdRun environment start (steps ++ [⟨before, call, code, after⟩]) after

/-- The directory that was current just before the last successful command, empty if
there was none. -/
def lastDirectory (steps : List CdStep) : CString :=
  steps.foldl (fun last step => if step.code = 0 then step.before.cwd else last) []

@[simp] theorem lastDirectory_snoc (steps : List CdStep) (step : CdStep) :
    lastDirectory (steps ++ [step]) =
      if step.code = 0 then step.before.cwd else lastDirectory steps := by
  simp [lastDirectory]

/-- When it fails, the command leaves the two directories as they were. -/
def CdStep.Keeps (step : CdStep) : Prop :=
  step.code = 1 → step.after.cwd = step.before.cwd ∧ step.after.lwd = step.before.lwd

/-- Its `chdir` does not fail, unless the last directory is the current one. -/
def CdStep.Safe (environment : Environment) (step : CdStep) : Prop :=
  ChdirFails environment step.before step.call → step.before.lwd = step.before.cwd

theorem CdEnds.of_run {environment : Environment} {call : CommandCall} {start finish : Shell}
    {code : Int} (ran : cd environment call start = .ok code finish) :
    CdEnds environment call start finish code := by
  obtain ⟨code', finish', ran', ends⟩ := cd_ends environment call start
  cases ran.symm.trans ran'
  exact ends

theorem CdEnds.keeps_iff {environment : Environment} {call : CommandCall} {start finish : Shell}
    {code : Int} (ends : CdEnds environment call start finish code) :
    CdStep.Keeps ⟨start, call, code, finish⟩ ↔ CdStep.Safe environment ⟨start, call, code, finish⟩ := by
  cases ends with
  | entered path count target changed lwd =>
      refine iff_of_true (fun failed => by cases failed) fun fails => ?_
      obtain ⟨path', count', text, target', _, failed⟩ := fails
      cases target.symm.trans target'
      rw [changed] at failed
      cases failed
  | refused fails cwd lwd =>
      constructor
      · intro keeps _
        exact (keeps rfl).2.symm.trans lwd
      · intro safe _
        exact ⟨cwd, lwd.trans (safe fails).symm⟩
  | kept works cwd lwd => exact iff_of_true (fun _ => ⟨cwd, lwd⟩) fun fails => absurd fails works

/-- The paths `getcwd` gives: they are not empty, `chdir` enters directories with such
paths, and it enters a directory by its own path. -/
structure PhysicalPaths (environment : Environment) (physical : CString → Prop) : Prop where
  nonempty : ∀ path, physical path → path ≠ []
  entered : ∀ count cwd path directory, environment.chdir count cwd path = .ok directory →
    physical directory
  itself : ∀ count cwd path directory, physical path →
    environment.chdir count cwd path = .ok directory → directory = path

section Paths

variable {environment : Environment} {physical : CString → Prop}

theorem CdRun.physical_cwd (paths : PhysicalPaths environment physical) {start finish : Shell}
    {steps : List CdStep} (run : CdRun environment start steps finish)
    (here : physical start.cwd) : physical finish.cwd := by
  induction run with
  | nil => exact here
  | snoc _ ran ih =>
      cases CdEnds.of_run ran with
      | entered path count target changed lwd => exact paths.entered _ _ _ _ changed
      | refused fails cwd lwd => exact cwd ▸ ih
      | kept works cwd lwd => exact cwd ▸ ih

theorem CdRun.physical_lastDirectory (paths : PhysicalPaths environment physical)
    {start finish : Shell} {steps : List CdStep} (run : CdRun environment start steps finish)
    (here : physical start.cwd) (succeeded : ∃ step ∈ steps, step.code = 0) :
    physical (lastDirectory steps) := by
  induction run with
  | nil =>
      obtain ⟨step, member, _⟩ := succeeded
      cases member
  | @snoc steps before after call code run ran ih =>
      rw [lastDirectory_snoc]
      by_cases success : code = 0
      · rw [if_pos success]
        exact run.physical_cwd paths here
      · rw [if_neg success]
        apply ih
        obtain ⟨step, member, zero⟩ := succeeded
        cases List.mem_append.mp member with
        | inl earlier => exact ⟨step, earlier, zero⟩
        | inr last =>
            cases List.mem_singleton.mp last
            exact absurd zero success

/-- The invariant of a run: `lwd` is the directory before the last success. -/
theorem CdRun.lwd {start finish : Shell} {steps : List CdStep}
    (run : CdRun environment start steps finish) (unset : start.lwd = [])
    (safe : ∀ step ∈ steps, step.Safe environment) : finish.lwd = lastDirectory steps := by
  induction run with
  | nil => exact unset
  | @snoc steps before after call code run ran ih =>
      have earlier := ih fun step member => safe step (List.mem_append_left _ member)
      have last := safe _ (List.mem_append_right steps (List.mem_singleton.mpr rfl))
      rw [lastDirectory_snoc]
      cases CdEnds.of_run ran with
      | entered path count target changed lwd => exact lwd
      | refused fails cwd lwd => exact (lwd.trans (last fails).symm).trans earlier
      | kept works cwd lwd => exact lwd.trans earlier

theorem cd_back (paths : PhysicalPaths environment physical) {call : CommandCall}
    {start finish : Shell} (back : AsksBack call) (known : physical start.lwd)
    (ran : cd environment call start = .ok 0 finish) :
    finish.cwd = start.lwd ∧ finish.lwd = start.cwd := by
  cases CdEnds.of_run ran with
  | entered path count target changed lwd =>
      have set : isLwdSet start.lwd = true := by simpa [isLwdSet] using paths.nonempty _ known
      have several : call.argc ≠ 1 := by
        rw [back.1]
        decide
      simp only [cdTarget, several, back, set, if_true, if_false] at target
      cases target
      exact ⟨paths.itself _ _ _ _ known changed, lwd⟩

/-- Over a sequence of commands `lwd` follows the successful ones, failures change
nothing and `cd -` goes back and forth, exactly when every `chdir` that is made succeeds
or finds the last directory to be the current one. -/
theorem lwd_follows_successes (paths : PhysicalPaths environment physical)
    {start finish : Shell} (unset : start.lwd = []) (here : physical start.cwd)
    {steps : List CdStep} (run : CdRun environment start steps finish) :
    (∀ step ∈ steps, step.Safe environment) ↔
      (∀ step ∈ steps, step.Keeps) ∧ finish.lwd = lastDirectory steps ∧
        ((∃ step ∈ steps, step.code = 0) → ∀ call, AsksBack call → ∀ back,
          cd environment call finish = .ok 0 back →
            back.cwd = lastDirectory steps ∧
              ∀ again, cd environment call back = .ok 0 again → again.cwd = finish.cwd) := by
  have each : ∀ step ∈ steps, step.Keeps ↔ step.Safe environment := by
    clear unset
    induction run with
    | nil =>
        intro step member
        cases member
    | snoc _ ran ih =>
        intro step member
        cases List.mem_append.mp member with
        | inl earlier => exact ih step earlier
        | inr last =>
            cases List.mem_singleton.mp last
            exact (CdEnds.of_run ran).keeps_iff
  constructor
  · intro safe
    have follows := run.lwd unset safe
    refine ⟨fun step member => (each step member).mpr (safe step member), follows, ?_⟩
    intro succeeded call asks back ran
    have known : physical finish.lwd := by
      rw [follows]
      exact run.physical_lastDirectory paths here succeeded
    obtain ⟨returned, left⟩ := cd_back paths asks known ran
    refine ⟨returned.trans follows, fun again ranAgain => ?_⟩
    have current : physical back.lwd := by
      rw [left]
      exact run.physical_cwd paths here
    exact (cd_back paths asks current ranAgain).1.trans left
  · intro property step member
    exact (each step member).mp (property.1 step member)

end Paths

/-- Every path but one names a directory, and every directory but one can be entered. -/
def Environment.guarded : Environment :=
  { Environment.exiting with
    stat := fun _ path => if path = [] then .missing else .directory
    chdir := fun _ _ path =>
      if path = [] then .error "No such file or directory".toList
      else if path = "/locked".toList then .error "Permission denied".toList
      else .ok path }

theorem guarded_paths :
    PhysicalPaths Environment.guarded fun path => path ≠ [] ∧ path ≠ "/locked".toList := by
  have entered : ∀ count cwd path directory,
      Environment.guarded.chdir count cwd path = .ok directory →
        directory = path ∧ path ≠ [] ∧ path ≠ "/locked".toList := by
    intro count cwd path directory changed
    simp only [Environment.guarded] at changed
    split at changed
    · cases changed
    · split at changed
      · cases changed
      · cases changed
        exact ⟨rfl, by assumption, by assumption⟩
  constructor
  · exact fun path physical => physical.1
  · intro count cwd path directory changed
    obtain ⟨rfl, free⟩ := entered count cwd path directory changed
    exact free
  · exact fun count cwd path directory _ changed => (entered count cwd path directory changed).1

/-- The state in which `cd` leaves the shell. -/
def afterCd (argument : CString) (start : Shell) : Shell :=
  finalState (cd Environment.guarded (newCommandCall ["cd".toList, argument] []) start)

theorem back_from_tmp :
    (afterCd "/tmp".toList (initInternals "/home".toList)).lwd = "/home".toList ∧
      (afterCd "-".toList (afterCd "/tmp".toList (initInternals "/home".toList))).cwd =
        "/home".toList := by
  have safe : ∀ step ∈ [CdStep.mk (initInternals "/home".toList)
      (newCommandCall ["cd".toList, "/tmp".toList] []) 0
      (afterCd "/tmp".toList (initInternals "/home".toList))], step.Safe Environment.guarded := by
    intro step member
    cases List.mem_singleton.mp member
    rintro ⟨path, count, text, target, _, failed⟩
    cases target
    cases failed
  have run : CdRun Environment.guarded (initInternals "/home".toList) _ _ :=
    .snoc .nil (show cd Environment.guarded (newCommandCall ["cd".toList, "/tmp".toList] [])
      (initInternals "/home".toList) =
        .ok 0 (afterCd "/tmp".toList (initInternals "/home".toList)) from rfl)
  obtain ⟨_, follows, returns⟩ :=
    (lwd_follows_successes guarded_paths rfl (by decide) run).mp safe
  refine ⟨follows, (returns ⟨_, .head _, rfl⟩ (newCommandCall ["cd".toList, "-".toList] [])
    (by decide) _ rfl).1⟩

/-- The failing command has written the current directory over the last one. -/
theorem refused_cd_forgets :
    cd Environment.guarded (newCommandCall ["cd".toList, "/locked".toList] [])
        (afterCd "/tmp".toList (initInternals "/home".toList)) =
      .ok 1 (afterCd "/locked".toList (afterCd "/tmp".toList (initInternals "/home".toList))) ∧
    (afterCd "/tmp".toList (initInternals "/home".toList)).lwd = "/home".toList ∧
    (afterCd "/locked".toList (afterCd "/tmp".toList (initInternals "/home".toList))).lwd =
      "/tmp".toList := ⟨rfl, rfl, rfl⟩

end Jsh
