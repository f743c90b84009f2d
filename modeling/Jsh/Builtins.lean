import Jsh.Jobs

/-!
# Built-in commands

The state of the shell and the commands it executes in its own process, from
`cd.c`, `pwd.c`, `exit.c`, `kill.c`, `fg.c`, `bg.c` and `last_exit_code_command.c`.
-/

set_option autoImplicit false

namespace Jsh

/-- The state of the shell process: the parser's, the job table with the trace, and
the variables of `internals.c`. -/
structure Shell where
  parser : ParserState
  control : Control
  lastExitCode : Int
  shouldExit : Bool
  cwd : CString
  lwd : CString
  deriving DecidableEq, Repr

/-- A function of the shell. -/
abbrev ShellAction (α : Type) := EStateM Halt Shell α

/-- A function of job control, called from the shell. -/
def liftJob {α : Type} (action : JobAction α) : ShellAction α := fun shell =>
  match action shell.control with
  | .ok value control => .ok value { shell with control }
  | .error halt control => .error halt { shell with control }

/-! ## `cd` and `pwd` -/

/-- `is_valid_path`: whether the path is a directory, or `none`. -/
def isValidPath (environment : Environment) (path : CString) (callStderr : Int) :
    JobAction (Option Bool) := do
  match ← outcome fun count => environment.stat count path with
  | .noAccess =>
      dprintf callStderr ("cd: invalid path: ".toList ++ path ++ " no access.\n".toList)
      return none
  | .missing =>
      dprintf callStderr ("cd: invalid path: ".toList ++ path ++ " does not exist.\n".toList)
      return none
  | .failed text =>
      dprintf callStderr ("cd: lstat failure. (".toList ++ text ++ ")\n".toList)
      return none
  | .file => return some false
  | .directory => return some true

/-- `is_valid_target_dir` -/
def isValidTargetDir (environment : Environment) (target : CString) (callStderr : Int) :
    JobAction Bool := do
  match ← isValidPath environment target callStderr with
  | none => return false
  | some false =>
      dprintf callStderr ("cd: ".toList ++ target ++ " is not a directory.\n".toList)
      return false
  | some true => return true

/-- `getcwd` -/
def getcwd (environment : Environment) : ShellAction (Except CString CString) := do
  match ← liftJob (outcome environment.getcwdError) with
  | some text => return .error text
  | none => return .ok (← get).cwd

/-- `set_new_cwd` -/
def setNewCwd (environment : Environment) (newCwd : CString) (callStderr : Int) :
    ShellAction Bool := do
  if !(← liftJob (isValidTargetDir environment newCwd callStderr)) then return false
  else
    match ← getcwd environment with
    | .error text =>
        liftJob (dprintf callStderr ("cd: getcwd failure. (".toList ++ text ++ ")\n".toList))
        return false
    | .ok cwd =>
        modify fun shell => { shell with lwd := cwd }
        match ← liftJob (outcome fun count => environment.chdir count cwd newCwd) with
        | .error text =>
            liftJob (dprintf callStderr ("cd: chdir failure. (".toList ++ text ++ ")\n".toList))
            return false
        | .ok entered =>
            modify fun shell => { shell with cwd := entered }
            return true

/-- `is_lwd_set` -/
def isLwdSet (lwd : CString) : Bool := decide (lwd ≠ [])

/-- The exit code of a function that returns a `bool`. -/
def exitCodeOf (succeeded : Bool) : Int := if succeeded then 0 else 1

/-- `cd` -/
def cd (environment : Environment) (call : CommandCall) : ShellAction Int := do
  if call.argc = 1 then
    match environment.home with
    | none =>
        liftJob (dprintf call.stderr "cd: HOME environment variable is not defined.\n".toList)
        return 1
    | some home => return exitCodeOf (← setNewCwd environment home call.stderr)
  else if call.argc = 2 ∧ call.argv.getD 1 [] = ['-'] then
    if isLwdSet (← get).lwd then
      return exitCodeOf (← setNewCwd environment (← get).lwd call.stderr)
    else
      match ← getcwd environment with
      | .error text =>
          liftJob (dprintf call.stderr ("cd: getcwd failure. (".toList ++ text ++ ")\n".toList))
          return 1
      | .ok cwd => return exitCodeOf (← setNewCwd environment cwd call.stderr)
  else if call.argc = 2 then
    return exitCodeOf (← setNewCwd environment (call.argv.getD 1 []) call.stderr)
  else
    liftJob (dprintf call.stderr "cd: incorrect usage of cd command.\n".toList)
    liftJob (dprintf call.stderr "cd: correct usage: cd [directory|-]\n".toList)
    return 1

/-- `get_current_wd`: the string, and whether it has been allocated. -/
def getCurrentWd (environment : Environment) : ShellAction (CString × Bool) := do
  match ← getcwd environment with
  | .error _ => return ([], false)
  | .ok cwd => return (cwd, true)

/-- `pwd`, which frees the string it has printed. -/
def pwd (environment : Environment) (call : CommandCall) : ShellAction Int := do
  if call.argc > 1 then
    liftJob (dprintf call.stderr "pwd: too many arguments\n".toList)
    return 1
  else
    let (cwd, allocated) ← getCurrentWd environment
    liftJob (dprintf call.stdout (cwd ++ "\n".toList))
    if allocated then return 0 else throw .crashed

/-! ## `?` and `exit` -/

/-- `last_exit_code_command` -/
def lastExitCodeCommand (call : CommandCall) : ShellAction Int := do
  if call.argc ≠ 1 then
    liftJob (dprintf call.stderr "?: too many arguments\n".toList)
    return 1
  else
    liftJob (dprintf call.stdout (decimal (← get).lastExitCode ++ "\n".toList))
    return 0

/-- Sets `should_exit`. -/
def leave (call : CommandCall) : ShellAction Unit := do
  liftJob (record (.leave call))
  modify fun shell => { shell with shouldExit := true }

/-- `exit_command` -/
def exitCommand (environment : Environment) (call : CommandCall) : ShellAction Int := do
  if call.argc > 2 then
    liftJob (dprintf call.stderr "exit: too many arguments\n".toList)
    return 1
  else
    liftJob (updateJobs environment)
    if areJobsRunning (← get).control.table then
      liftJob (dprintf call.stderr "jsh: you have running jobs.\n".toList)
      return 1
    else if call.argc = 1 then
      leave call
      return (← get).lastExitCode
    else if call.argc = 2 then
      let argument := call.argv.getD 1 []
      match ← liftJob (parseIntmaxT argument call.stderr) with
      | none => return 1
      | some parsedValue =>
          if parsedValue < 0 ∨ parsedValue > 255 then
            liftJob (dprintf call.stderr ("exit: ".toList ++ argument ++
              ": number between 0 and 255 (inclusive) required\n".toList))
            return 1
          else
            modify fun shell => { shell with lastExitCode := parsedValue }
            leave call
            return parsedValue
    else return (← get).lastExitCode

/-! ## `kill`, `fg` and `bg` -/

/-- The answer of `kill_query` to what `kill` has returned. -/
def killAnswer (callStderr sig : Int) : Option KillError → JobAction Bool
  | none => return true
  | some .invalidSignal => do
      dprintf callStderr ("kill: ".toList ++ decimal sig ++ ": invalid signal.\n".toList)
      return false
  | some .noSuchProcess => do
      dprintf callStderr ("kill: ".toList ++ decimal sig ++ ": no such process.\n".toList)
      return false
  | some (.other text) => do
      dprintf callStderr ("kill: kill failure. (".toList ++ text ++ ")\n".toList)
      return false

/-- `kill_command` after the signal has been read. -/
def killTarget (environment : Environment) (sig : Int) (identifier : CString) (callStderr : Int) :
    JobAction Int := do
  if startsWith identifier ['%'] then
    match ← getJob identifier callStderr with
    | none => return 1
    | some index =>
        match (← get).table.slot index with
        | none => throw .crashed
        | some job =>
            let answer ← killAnswer callStderr sig (← signalJob environment job sig)
            return exitCodeOf answer
  else
    match ← parseIntmaxT identifier callStderr with
    | none => return 1
    | some parsedValue =>
        let answer ← killAnswer callStderr sig (← kill environment (toInt parsedValue) sig)
        return exitCodeOf answer

/-- `kill_command` -/
def killCommand (environment : Environment) (call : CommandCall) : JobAction Int := do
  if call.argc < 2 ∨ call.argc > 3 then
    dprintf call.stderr "kill: incorrect usage of kill command.\n".toList
    dprintf call.stderr "kill: correct usage: kill [-sig] %job|pid\n".toList
    return 1
  else
    let first := call.argv.getD 1 []
    if startsWith first ['-'] then
      match ← parseIntmaxT (first.drop 1) call.stderr with
      | none => return 1
      | some parsedValue =>
          if call.argc ≠ 3 then
            dprintf call.stderr "kill: missing %job|pid argument.\n".toList
            return 0
          else killTarget environment (toInt parsedValue) (call.argv.getD 2 []) call.stderr
    else killTarget environment sigterm first call.stderr

/-- The argument check of `fg` and `bg`, and what they do with the job. -/
def jobCommand (name : CString) (action : Nat → JobAction Bool) (call : CommandCall) :
    JobAction Int := do
  if call.argc = 1 then
    dprintf call.stderr (name ++ ": missing argument\n".toList)
    return 1
  else if call.argc > 2 then
    dprintf call.stderr (name ++ ": too many arguments\n".toList)
    return 1
  else
    match ← getJob (call.argv.getD 1 []) call.stderr with
    | none => return 1
    | some index => return exitCodeOf (← action index)

/-- `fg_command` -/
def fgCommand (environment : Environment) (call : CommandCall) : JobAction Int :=
  jobCommand "fg".toList (putJobInForeground environment) call

/-- `bg_command` -/
def bgCommand (environment : Environment) (call : CommandCall) : JobAction Int :=
  jobCommand "bg".toList (continueJobInBackground environment) call

/-! ## Dispatch -/

/-- `internal_commands` -/
def internalCommands : List CString :=
  ["cd".toList, "exit".toList, "pwd".toList, "?".toList, "jobs".toList, "fg".toList, "bg".toList,
    "kill".toList]

/-- `is_internal_command` -/
def isInternalCommand (call : CommandCall) : Bool := internalCommands.contains call.name

/-- `execute_internal_command` -/
def executeInternalCommand (environment : Environment) (call : CommandCall) : ShellAction Int := do
  liftJob (record (.call call))
  if call.name = "cd".toList then cd environment call
  else if call.name = "?".toList then lastExitCodeCommand call
  else if call.name = "exit".toList then exitCommand environment call
  else if call.name = "pwd".toList then pwd environment call
  else if call.name = "jobs".toList then liftJob (jobsCommand environment call)
  else if call.name = "kill".toList then liftJob (killCommand environment call)
  else if call.name = "fg".toList then liftJob (fgCommand environment call)
  else if call.name = "bg".toList then liftJob (bgCommand environment call)
  else return 0

end Jsh
