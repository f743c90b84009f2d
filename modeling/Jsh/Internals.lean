import Jsh.Builtins

/-!
# Execution of a command

The functions of `internals.c`. Whether a child gets from `fork` to `execvp` depends
on its own system calls; the descriptors it has there do not.
-/

set_option autoImplicit false

namespace Jsh

/-- `UNINITIALIZED_PID` -/
def uninitializedPid : Int := -2

/-- `UNINITIALIZED_EXIT_CODE` -/
def uninitializedExitCode : Int := -1

/-- `internal_exit_info` -/
structure InternalExitInfo where
  pid : Int
  exitCode : Int
  deriving DecidableEq, Repr

/-- `has_exit_code` of an info that is not `NULL`. -/
def hasExitCode (info : InternalExitInfo) : Bool := decide (info.exitCode ≠ uninitializedExitCode)

/-- `command_result`. The command it points to is the one that has been executed. -/
structure CommandResult where
  exitCode : Int
  pid : Int
  jobId : Nat
  deriving DecidableEq, Repr

/-- `new_command_result` -/
def newCommandResult (exitCode : Int) : CommandResult :=
  { exitCode, pid := uninitializedPid, jobId := uninitializedJobId }

/-! ## Descriptors of the shell and of its children -/

def modifyKernel (update : Kernel → Kernel) : ShellAction Unit :=
  modify fun shell => { shell with parser := { shell.parser with kernel := update shell.parser.kernel } }

/-- `pipe(2)` in the shell. -/
def pipe (environment : Environment) : ShellAction (Option (Int × Int)) :=
  modifyGet fun shell =>
    let (fd, kernel) := shell.parser.kernel.pipe environment.files
    (fd, { shell with parser := { shell.parser with kernel } })

/-- `close_reading_pipes` -/
def closeReadingPipes (command : Command) (call : CommandCall) (kernel : Kernel) : Kernel :=
  command.openPipes.zipIdx.foldl
    (fun kernel (pipe, index) =>
      if call.readingPipes.contains index then kernel else kernel.close pipe.1) kernel

/-- `close_writing_pipes` -/
def closeWritingPipes (command : Command) (call : CommandCall) (kernel : Kernel) : Kernel :=
  command.openPipes.zipIdx.foldl
    (fun kernel (pipe, index) =>
      if call.writingPipes.contains index then kernel else kernel.close pipe.2) kernel

/-- The descriptors of a child of `execute_single_command` at its `execvp`, from those
of the shell at the `fork`; `fd` and `fd2` are the handshake pipes. -/
def childKernel (command : Command) (call : CommandCall) (fd fd2 : Int × Int) (kernel : Kernel) :
    Kernel :=
  let kernel := (((kernel.close fd.2).close fd2.1).close fd.1).close fd2.2
  let kernel := closeWritingPipes command call (closeReadingPipes command call kernel)
  ((kernel.dup2 call.stdin stdinFileno).dup2 call.stdout stdoutFileno).dup2 call.stderr stderrFileno

/-! ## Launching the calls of a command -/

/-- `execute_single_command` after the handshake pipes have been made. -/
def forkCall (environment : Environment) (command : Command) (call : CommandCall) (job : Job)
    (fd fd2 : Int × Int) : ShellAction (Option InternalExitInfo × Job) := do
  match ← liftJob (outcome environment.fork) with
  | none => return (none, job)
  | some pid =>
      let kernel := childKernel command call fd fd2 (← get).parser.kernel
      liftJob (record (.child { pid, command, call, descriptors := kernel.descriptors }))
      let job := if job.pgid = 0 then { job with pgid := pid } else job
      modifyKernel fun kernel => (kernel.close fd.1).close fd2.2
      if !(← liftJob (outcome environment.handshake)) then
        let _ ← liftJob (kill environment pid sigkill)
        return (none, job)
      else
        modifyKernel fun kernel => kernel.close fd.2
        if !(← liftJob (outcome environment.handshake)) then
          let _ ← liftJob (kill environment pid sigkill)
          return (none, job)
        else
          modifyKernel fun kernel => kernel.close fd2.1
          return (some { pid, exitCode := uninitializedExitCode }, job)

/-- `execute_single_command`: the info, and the job with its process group. -/
def executeSingleCommand (environment : Environment) (command : Command) (call : CommandCall)
    (job : Job) : ShellAction (Option InternalExitInfo × Job) := do
  if isInternalCommand call then
    let exitCode ← executeInternalCommand environment call
    return (some { pid := uninitializedPid, exitCode }, job)
  else
    liftJob (record (.call call))
    match ← pipe environment with
    | none => return (none, job)
    | some fd =>
        match ← pipe environment with
        | none => return (none, job)
        | some fd2 => forkCall environment command call job fd fd2

/-- The loop of `execute_as_job` over the calls from `index` on. -/
def executeCalls (environment : Environment) (command : Command) (index : Nat)
    (info : Option InternalExitInfo) (job : Job) :
    List CommandCall → ShellAction (Option InternalExitInfo × Job)
  | [] => return (info, job)
  | call :: rest => do
      let (launched, job) ← executeSingleCommand environment command call job
      match launched with
      | none =>
          if job.pgid ≠ 0 then
            let _ ← liftJob (kill environment (-job.pgid) sigkill)
          return (none, job)
      | some launched =>
          let info := if index = 0 then some launched else info
          let job :=
            if launched.pid ≠ uninitializedPid then
              { job with
                subjobs := job.subjobs.set index (some (newSubjob call launched.pid .running)) }
            else job
          executeCalls environment command (index + 1) info job rest

/-- `execute_as_job` -/
def executeAsJob (environment : Environment) (command : Command) (job : Job) :
    ShellAction (Option InternalExitInfo × Job) :=
  executeCalls environment command 0 none job command.commandCalls

/-- `setup_job` -/
def setupJob (command : Command) : Job := newJob command.commandCalls.length command.commandString

/-! ## Execution -/

/-- Puts the job in the table and prints it. `job_id` is converted to a `size_t`. -/
def keepJob (info : InternalExitInfo) (job : Job) : JobAction CommandResult := do
  let (jobId, job) ← addJob job
  printJob job stderrFileno
  return { exitCode := 0, pid := info.pid, jobId := (jobId % 2 ^ 64).toNat }

/-- `execute_external_command` -/
def executeExternalCommand (environment : Environment) (command : Command) :
    ShellAction CommandResult := do
  let (info, job) ← executeAsJob environment command (setupJob command)
  modifyKernel (closePipes command.openPipes)
  match info with
  | none => return newCommandResult 1
  | some info =>
      if command.background then liftJob (keepJob info job)
      else
        let (exitCode, job) ← liftJob (blockingWaitForJob environment job)
        if !(← liftJob (tcsetpgrp environment environment.shellPgid)) then throw (.exited 1)
        else if exitCode = -1 then return newCommandResult 1
        else if job.status = .done ∨ job.status = .killed ∨ job.status = .detached then
          return newCommandResult (if hasExitCode info then info.exitCode else exitCode)
        else liftJob (keepJob info job)

/-- `update_command_history` -/
def updateCommandHistory (result : CommandResult) : ShellAction Unit := do
  liftJob (record (.result result.exitCode))
  modify fun shell => { shell with lastExitCode := result.exitCode }

/-- The two ways `execute_command` executes a command. -/
def runCommand (environment : Environment) (command : Command) : ShellAction CommandResult :=
  match command.commandCalls with
  | [call] =>
      if isInternalCommand call then do
        let exitCode ← executeInternalCommand environment call
        return newCommandResult exitCode
      else executeExternalCommand environment command
  | _ => executeExternalCommand environment command

/-- `execute_command` -/
def executeCommand (environment : Environment) (command : Command) : ShellAction CommandResult := do
  let result ← runCommand environment command
  modifyKernel (closeUnusedFileDescriptors command.commandCalls command.openPipes)
  updateCommandHistory result
  return result

end Jsh
