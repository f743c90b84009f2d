import Jsh.Internals
import Jsh.ReadLine

/-!
# The prompt loop

`prompt.c` and `main`. A run of the shell is given by what `readline` returns at each
prompt, with `none` for `NULL`.
-/

set_option autoImplicit false

namespace Jsh

/-! ## The prompt -/

/-- `trunc_start` -/
def truncStart (string : CString) (toKeep : Nat) : CString :=
  if toKeep ≥ string.length then string else string.drop (string.length - toKeep)

/-- `colored` -/
def colored (color string : CString) : CString :=
  '\x01' :: color ++ '\x02' :: string ++ '\x1b' :: "[0m".toList

/-- `in_red` -/
def inRed (string : CString) : CString := colored ('\x1b' :: "[0;31m".toList) string

/-- `in_green` -/
def inGreen (string : CString) : CString := colored ('\x1b' :: "[0;32m".toList) string

/-- `in_yellow` -/
def inYellow (string : CString) : CString := colored ('\x1b' :: "[0;33m".toList) string

/-- `in_blue` -/
def inBlue (string : CString) : CString := colored ('\x1b' :: "[0;34m".toList) string

/-- `LIMIT_PROMPT_SIZE` -/
def limitPromptSize : Nat := 30

/-- `max_size` of `get_prompt_string`, a `size_t`. -/
def maxPathSize (totalJobs : CString) : Nat :=
  (((limitPromptSize : Int) - totalJobs.length - "...".length - "$ ".length) % 2 ^ 64).toNat

/-- `get_prompt_string`, which frees the string `get_current_wd` has returned. -/
def getPromptString (environment : Environment) : ShellAction CString := do
  let shell ← get
  let totalJobs := "[".toList ++ decimal shell.control.table.size ++ "]".toList
  let dollarSign :=
    if shell.lastExitCode ≠ 0 then inRed "$ ".toList else inGreen "$ ".toList
  let maxSize := maxPathSize totalJobs
  let (pwd, allocated) ← getCurrentWd environment
  let path ←
    if pwd.length > maxSize then do
      let (cwd, _) ← getCurrentWd environment
      pure (inBlue "...".toList ++ inBlue (truncStart cwd maxSize))
    else pure (inBlue pwd)
  if allocated then return inYellow totalJobs ++ path ++ dollarSign
  else throw .crashed

/-! ## The loop -/

/-- The inner loop of `prompt` over the commands of a line. -/
def executeCommands (environment : Environment) : List (Option Command) → ShellAction Unit
  | [] => return
  | none :: _ => throw .crashed
  | some command :: later => do
      liftJob (record (.command command later))
      let _ ← executeCommand environment command
      executeCommands environment later

/-- The call of `parse_read_line`. -/
def readLine (environment : Environment) (line : CString) :
    ShellAction (Option (List (Option Command))) := do
  liftJob (record (.line line (← get).parser))
  modifyGet fun shell =>
    let read := parseReadLine environment.files line shell.parser shell.lastExitCode
    (read.commands, { shell with parser := read.parser, lastExitCode := read.lastExitCode })

/-- One iteration of the loop of `prompt`. -/
def promptTurn (environment : Environment) (input : Option CString) : ShellAction Unit := do
  liftJob (updateJobs environment)
  let text ← getPromptString environment
  liftJob (record (.prompt text))
  match ← readLine environment (input.getD "exit".toList) with
  | none => return
  | some commands => executeCommands environment commands

/-- `prompt`, as far as the inputs go. -/
def prompt (environment : Environment) : List (Option CString) → ShellAction Unit
  | [] => return
  | input :: rest => do
      if (← get).shouldExit then return
      else
        promptTurn environment input
        prompt environment rest

/-- `init_internals` in a freshly started shell. -/
def initInternals (cwd : CString) : Shell :=
  { parser := startedShell
    control := { table := initJobTable, calls := 0, trace := [] }
    lastExitCode := 0
    shouldExit := false
    cwd
    lwd := [] }

/-- `main` after `init_internals`: the value it returns once the loop has ended. -/
def main (environment : Environment) (inputs : List (Option CString)) : ShellAction Int := do
  prompt environment inputs
  return (← get).lastExitCode

end Jsh
