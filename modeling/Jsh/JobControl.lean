import Jsh.Command

/-!
# Jobs and the system

The data of `jobs.h`, and the system calls job control is made of. The outcome of a
call is any function of how many calls have been made before it and of its
arguments, so that processes may stop, go on, exit or be killed at any moment.
Everything the shell does that can be seen from outside is recorded in a trace.
-/

set_option autoImplicit false

namespace Jsh

/-- `job_status` -/
inductive JobStatus where
  | running
  | stopped
  | detached
  | killed
  | done
  deriving DecidableEq, Repr

/-- `job_status_to_string` -/
def jobStatusToString : JobStatus → CString
  | .running => "Running".toList
  | .stopped => "Stopped".toList
  | .done => "Done".toList
  | .killed => "Killed".toList
  | .detached => "Detached".toList

/-- `subjob` -/
structure Subjob where
  command : CString
  pid : Int
  lastStatus : JobStatus
  deriving DecidableEq, Repr

/-- `job`. A slot of `subjobs` is `none` for a call that launched no process;
`subjobs_size` is the length of the array. -/
structure Job where
  id : Nat
  status : JobStatus
  pgid : Int
  commandString : CString
  subjobs : List (Option Subjob)
  deriving DecidableEq, Repr

/-- `UNINITIALIZED_JOB_ID` -/
def uninitializedJobId : Nat := 0

/-- `new_subjob` -/
def newSubjob (call : CommandCall) (pid : Int) (status : JobStatus) : Subjob :=
  { command := call.commandString, pid, lastStatus := status }

/-- `new_job` -/
def newJob (subjobsSize : Nat) (commandString : CString) : Job :=
  { id := uninitializedJobId
    status := .running
    pgid := 0
    commandString
    subjobs := List.replicate subjobsSize none }

/-- `job_table`, `job_table_size` and `job_table_capacity`. -/
structure JobTable where
  slots : List (Option Job)
  size : Nat
  capacity : Nat
  deriving DecidableEq, Repr

/-- `INITIAL_JOB_TABLE_CAPACITY` -/
def initialJobTableCapacity : Nat := 64

/-- `init_job_table` -/
def initJobTable : JobTable :=
  { slots := List.replicate initialJobTableCapacity none
    size := 0
    capacity := initialJobTableCapacity }

/-- `job_table[index]` -/
def JobTable.slot (table : JobTable) (index : Nat) : Option Job := table.slots.getD index none

def JobTable.write (table : JobTable) (index : Nat) (slot : Option Job) : JobTable :=
  { table with slots := table.slots.set index slot }

/-- The jobs in the table. -/
def JobTable.jobs (table : JobTable) : List Job := table.slots.reduceOption

/-! ## System calls -/

/-- What `waitpid` returns: -1, 0, or the process with its status. -/
inductive WaitResponse where
  | failed
  | unchanged
  | changed (status : Nat)
  deriving DecidableEq, Repr

/-- The values of `errno` after `kill` that the shell tells apart. -/
inductive KillError where
  | invalidSignal
  | noSuchProcess
  | other (text : CString)
  deriving DecidableEq, Repr

/-- What `stat` says about a path. -/
inductive StatResult where
  | noAccess
  | missing
  | failed (text : CString)
  | file
  | directory
  deriving DecidableEq, Repr

/-- The descendants of a process, as `/proc` shows them. -/
inductive ProcessTree where
  | node (pid : Int) (children : List ProcessTree)

/-- The id `fork` returns to the parent. -/
abbrev Pid := { pid : Int // 0 < pid }

/-- The outcomes of the system calls. -/
structure Environment where
  files : FileOutcomes
  fork : Nat → Option Pid
  /-- Whether the parent's `write` or `read` on a handshake pipe succeeds. -/
  handshake : Nat → Bool
  waitpid : Nat → Int → WaitResponse
  kill : Nat → Int → Int → Option KillError
  tcsetpgrp : Nat → Int → Bool
  /-- `getpgrp`, which cannot fail. -/
  shellPgid : Int
  /-- The descendants of a process, as `get_children` finds them. -/
  children : Nat → Int → List ProcessTree
  home : Option CString
  stat : Nat → CString → StatResult
  /-- Whether `getcwd` fails, with the text of `strerror`. -/
  getcwdError : Nat → Option CString
  /-- The working directory after a `chdir`, or the text of `strerror`. -/
  chdir : Nat → CString → CString → Except CString CString

/-- A forked child: the command and the call it was forked for, and the descriptors it
has open if and when it reaches `execvp`. -/
structure Child where
  pid : Int
  command : Command
  call : CommandCall
  descriptors : List Descriptor
  deriving DecidableEq, Repr

inductive Event where
  /-- A line is handed to the parser in this state. -/
  | line (line : CString) (parser : ParserState)
  /-- A prompt is shown. -/
  | prompt (text : CString)
  /-- A line printed on a descriptor. -/
  | print (fd : Int) (text : CString)
  /-- The job table after it has been written. -/
  | table (table : JobTable)
  | waitpid (pid : Int)
  | kill (target signal : Int)
  /-- A signal that `kill`, `fg` or `bg` sends to a job. -/
  | signalJob (job : Job) (target signal : Int)
  | tcsetpgrp (pgid : Int)
  | child (child : Child)
  /-- A command of a line is executed, with those of the line that follow it. -/
  | command (command : Command) (later : List (Option Command))
  /-- A call of a command is executed. -/
  | call (call : CommandCall)
  /-- A command has been executed, with this exit code. -/
  | result (exitCode : Int)
  /-- `exit_command` has accepted to leave. -/
  | leave (call : CommandCall)
  deriving DecidableEq, Repr

/-- What ends the shell process at once: a call of `exit`, or an access through a
`NULL` pointer. -/
inductive Halt where
  | exited (code : Int)
  | crashed
  deriving DecidableEq, Repr

/-- The part of the shell's state that job control reads and writes, with the number
of system calls made and the trace. -/
structure Control where
  table : JobTable
  calls : Nat
  trace : List Event
  deriving DecidableEq, Repr

/-- A function of job control. -/
abbrev JobAction (α : Type) := EStateM Halt Control α

/-- Records an event. -/
def record (event : Event) : JobAction Unit :=
  modify fun control => { control with trace := control.trace ++ [event] }

/-- The outcome of the next system call. -/
def outcome {α : Type} (outcomes : Nat → α) : JobAction α :=
  modifyGet fun control => (outcomes control.calls, { control with calls := control.calls + 1 })

def waitpid (environment : Environment) (pid : Int) : JobAction WaitResponse := do
  record (.waitpid pid)
  outcome fun count => environment.waitpid count pid

def kill (environment : Environment) (target signal : Int) : JobAction (Option KillError) := do
  record (.kill target signal)
  outcome fun count => environment.kill count target signal

def tcsetpgrp (environment : Environment) (pgid : Int) : JobAction Bool := do
  record (.tcsetpgrp pgid)
  outcome fun count => environment.tcsetpgrp count pgid

/-- `dprintf` -/
def dprintf (fd : Int) (text : CString) : JobAction Unit := record (.print fd text)

def Control.store (control : Control) (table : JobTable) : Control :=
  { control with table, trace := control.trace ++ [.table table] }

/-- A write to the job table. -/
def setTable (table : JobTable) : JobAction Unit := modify fun control => control.store table

def sigkill : Int := 9
def sigterm : Int := 15
def sigcont : Int := 18

/-- The conversion of an integer to a C `int`. -/
def toInt (value : Int) : Int := value.bmod (2 ^ 32)

end Jsh
