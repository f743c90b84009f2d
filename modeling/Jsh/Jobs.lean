import Jsh.JobControl

/-!
# Job control

The functions of `jobs.c`. A `job *` into the job table is the index of its slot; a
job that is not in the table is passed by value and returned as it is after the
call. Lines that `perror` prints about a failed system call are left out.
-/

set_option autoImplicit false

namespace Jsh

def printSubjob (subjob : Subjob) (fd : Int) : JobAction Unit :=
  dprintf fd ("\t".toList ++ decimal subjob.pid ++ "\t".toList ++
    jobStatusToString subjob.lastStatus ++ "\t".toList ++ subjob.command ++ "\n".toList)

def printJob (job : Job) (fd : Int) : JobAction Unit :=
  dprintf fd ("[".toList ++ decimal job.id ++ "]\t".toList ++ decimal job.pgid ++ "\t".toList ++
    jobStatusToString job.status ++ "\t".toList ++ job.commandString ++ "\n".toList)

/-! ## The job table -/

/-- The table `add_job` makes of a full one: the slots from `job_table_size` on are set
to `NULL`. -/
def JobTable.grow (table : JobTable) : JobTable :=
  let capacity := table.capacity + initialJobTableCapacity
  { table with
    capacity
    slots := table.slots.take table.size ++ List.replicate (capacity - table.size) none }

/-- The growth of the table by `add_job`. `reallocarray` fails when the size in bytes is
not a `size_t`. -/
def growTable : JobAction Unit := do
  let table := (← get).table
  if table.grow.capacity * 8 ≥ 2 ^ 64 then throw (.exited 1)
  else setTable table.grow

/-- A job enters an empty slot. -/
def JobTable.insert (table : JobTable) (index : Nat) (job : Job) : JobTable :=
  { table.write index (some job) with size := table.size + 1 }

/-- The job in a slot leaves the table. -/
def JobTable.erase (table : JobTable) (index : Nat) : JobTable :=
  { table.write index none with size := table.size - 1 }

/-- The search of `add_job` for an empty slot. -/
def enterJob (job : Job) : JobAction (Int × Job) := do
  let table := (← get).table
  match table.slots.findIdx? (·.isNone) with
  | some index =>
      let job := { job with id := index + 1 }
      setTable (table.insert index job)
      return (toInt (index + 1 : Nat), job)
  | none => return (-1, job)

/-- `add_job`: the value it returns, and the job with the id it has given it. -/
def addJob (job : Job) : JobAction (Int × Job) := do
  let table := (← get).table
  if table.size = table.capacity then
    growTable
    enterJob job
  else enterJob job

/-- `remove_job` -/
def removeJob (id : Nat) : JobAction Nat := do
  let table := (← get).table
  if id < 1 ∨ id > table.capacity ∨ table.size = 0 then return 1
  match table.slot (id - 1) with
  | none => return 1
  | some _ =>
      setTable (table.erase (id - 1))
      return 0

/-! ## Statuses -/

/-- The status of a subjob that exists. -/
def Job.statuses (job : Job) : List JobStatus := job.subjobs.reduceOption.map (·.lastStatus)

def isJobAlive (job : Job) : Bool :=
  job.statuses.any fun status => status == .running || status == .stopped

def isFinishedStatus (status : JobStatus) : Bool :=
  status == .done || status == .killed || status == .detached

def isJobFinished (job : Job) : Bool := job.statuses.all isFinishedStatus

def isJobKilled (job : Job) : Bool := isJobFinished job && job.statuses.any (· == .killed)

def isJobSuspended (job : Job) : Bool :=
  !isJobFinished job && !job.statuses.any (· == .running)

def isJobRunning (job : Job) : Bool := job.statuses.any (· == .running)

/-- `update_job_status` -/
def updateJobStatus (environment : Environment) (job : Job) : JobAction Job := do
  if isJobRunning job then return { job with status := .running }
  else if isJobSuspended job then return { job with status := .stopped }
  else if isJobFinished job then
    match ← kill environment (-job.pgid) 0 with
    | none => return { job with status := .detached }
    | some _ =>
        if isJobKilled job then return { job with status := .killed }
        else return { job with status := .done }
  else return { job with status := .running }

/-- `WIFEXITED` -/
def ifExited (status : Nat) : Bool := status % 128 == 0

/-- `WEXITSTATUS` -/
def exitStatus (status : Nat) : Nat := status / 256 % 256

/-- `WIFSTOPPED` -/
def ifStopped (status : Nat) : Bool := status % 256 == 127

/-- `WIFCONTINUED` -/
def ifContinued (status : Nat) : Bool := status == 65535

/-- `WIFSIGNALED` -/
def ifSignaled (status : Nat) : Bool := decide (0 < status % 128) && decide (status % 128 < 127)

def jobStatusFromInt (status : Nat) : JobStatus :=
  if ifExited status then .done
  else if ifStopped status then .stopped
  else if ifContinued status then .running
  else if ifSignaled status then .killed
  else .running

/-- `process_waitpid_response`: the updated status, or `none` for -1. -/
def processWaitpidResponse (response : WaitResponse) (lastStatus : JobStatus) : Option JobStatus :=
  match response with
  | .failed => none
  | .unchanged => some lastStatus
  | .changed status => some (jobStatusFromInt status)

/-- The loop of `wait_for_job` over the subjobs; whether it has gone through all of
them, and the subjobs. -/
def waitForSubjobs (environment : Environment) :
    List (Option Subjob) → JobAction (Bool × List (Option Subjob))
  | [] => return (true, [])
  | none :: rest => do
      let (all, rest) ← waitForSubjobs environment rest
      return (all, none :: rest)
  | some subjob :: rest => do
      if isFinishedStatus subjob.lastStatus then
        let (all, rest) ← waitForSubjobs environment rest
        return (all, some subjob :: rest)
      else
        let response ← waitpid environment subjob.pid
        match processWaitpidResponse response subjob.lastStatus with
        | none => return (false, some subjob :: rest)
        | some lastStatus =>
            let (all, rest) ← waitForSubjobs environment rest
            return (all, some { subjob with lastStatus } :: rest)

/-- `wait_for_job`: whether it returns 0, and the job. -/
def waitForJob (environment : Environment) (job : Job) : JobAction (Bool × Job) := do
  let (all, subjobs) ← waitForSubjobs environment job.subjobs
  let job := { job with subjobs }
  if all then return (true, ← updateJobStatus environment job)
  else return (false, job)

/-- The loop of `blocking_wait_for_job` from `index` on: its exit status, -1 after a
failure, and the subjobs. -/
def blockingWaitForSubjobs (environment : Environment) (index : Nat) (exitCode : Int) :
    List (Option Subjob) → JobAction (Int × List (Option Subjob))
  | [] => return (exitCode, [])
  | none :: rest => do
      let (exitCode, rest) ← blockingWaitForSubjobs environment (index + 1) exitCode rest
      return (exitCode, none :: rest)
  | some subjob :: rest => do
      if isFinishedStatus subjob.lastStatus then
        let (exitCode, rest) ← blockingWaitForSubjobs environment (index + 1) exitCode rest
        return (exitCode, some subjob :: rest)
      else
        let response ← waitpid environment subjob.pid
        match processWaitpidResponse response subjob.lastStatus with
        | none => return (-1, some subjob :: rest)
        | some lastStatus =>
            let exitCode : Int :=
              match response with
              | .changed status =>
                  if index = 0 ∧ lastStatus ≠ .running ∧ lastStatus ≠ .stopped then
                    (exitStatus status : Int)
                  else exitCode
              | _ => exitCode
            let (exitCode, rest) ← blockingWaitForSubjobs environment (index + 1) exitCode rest
            return (exitCode, some { subjob with lastStatus } :: rest)

/-- `blocking_wait_for_job` -/
def blockingWaitForJob (environment : Environment) (job : Job) : JobAction (Int × Job) := do
  let (exitCode, subjobs) ← blockingWaitForSubjobs environment 0 0 job.subjobs
  let job := { job with subjobs }
  if exitCode = -1 then return (-1, job)
  else return (exitCode, ← updateJobStatus environment job)

/-- `are_jobs_running` -/
def areJobsRunning (table : JobTable) : Bool := table.jobs.any isJobAlive

/-- The body of the loop of `fd_update_jobs`. -/
def fdUpdateJob (environment : Environment) (fd : Int) (index : Nat) : JobAction Unit := do
  match (← get).table.slot index with
  | none => return
  | some job =>
      let lastStatus := job.status
      let (waited, job) ← waitForJob environment job
      setTable ((← get).table.write index (some job))
      if waited then
        if lastStatus ≠ job.status then printJob job fd
        if isJobFinished job then
          let _ ← removeJob job.id

def fdUpdateJobsFrom (environment : Environment) (fd : Int) : List Nat → JobAction Unit
  | [] => return
  | index :: rest => do
      fdUpdateJob environment fd index
      fdUpdateJobsFrom environment fd rest

/-- `fd_update_jobs` -/
def fdUpdateJobs (environment : Environment) (fd : Int) : JobAction Unit := do
  fdUpdateJobsFrom environment fd (List.range (← get).table.capacity)

/-- `update_jobs` -/
def updateJobs (environment : Environment) : JobAction Unit := fdUpdateJobs environment stderrFileno

/-! ## Job identifiers -/

def isSpaceChar (char : Char) : Bool :=
  char == ' ' || char == '\t' || char == '\n' || char == '\x0b' || char == '\x0c' || char == '\r'

/-- The value of leading decimal digits, on top of the value of those before them. -/
def digitsValue (value : Nat) : CString → Nat
  | [] => value
  | char :: rest =>
      if char.isDigit then digitsValue (value * 10 + (char.toNat - '0'.toNat)) rest else value

def intmaxMin : Int := -2 ^ 63
def intmaxMax : Int := 2 ^ 63 - 1

/-- `strtoimax` in base 10: the mathematical value before any clamping, and the rest of
the string, which is the whole string if there is no number. -/
def strtoimax (string : CString) : Int × CString :=
  let trimmed := string.dropWhile isSpaceChar
  let negative := trimmed.head? == some '-'
  let digits :=
    if negative || trimmed.head? == some '+' then trimmed.tail else trimmed
  if (digits.headD ' ').isDigit then
    let value : Int := digitsValue 0 digits
    (if negative then -value else value, digits.dropWhile (·.isDigit))
  else (0, string)

/-- `parse_intmax_t` -/
def parseIntmaxT (string : CString) (fd : Int) : JobAction (Option Int) := do
  let (value, rest) := strtoimax string
  if value < intmaxMin then
    dprintf fd "strtoimax: underflow.\n".toList
    return none
  else if value > intmaxMax then
    dprintf fd "strtoimax: overflow.\n".toList
    return none
  else if rest ≠ [] then
    dprintf fd ("strtoimax: ".toList ++ string ++ ": invalid characters present.\n".toList)
    return none
  else return some value

/-- `get_job`: the slot of the job. -/
def getJob (jobIdString : CString) (errorFd : Int) : JobAction (Option Nat) := do
  if ¬ startsWith jobIdString ['%'] then
    dprintf errorFd "invalid job id (missing %)\n".toList
    return none
  else
    match ← parseIntmaxT (jobIdString.drop 1) errorFd with
    | none => return none
    | some parsedValue =>
        let table := (← get).table
        let jobId := parsedValue.toNat
        if parsedValue < 0 then
          dprintf errorFd (decimal (parsedValue + 2 ^ 64) ++ ":%job can't be negative.\n".toList)
          return none
        else if jobId < 1 ∨ jobId > table.capacity ∨ table.size = 0 then
          dprintf errorFd ("%".toList ++ decimal jobId ++ ": invalid job_id.\n".toList)
          return none
        else if table.slot (jobId - 1) = none then
          dprintf errorFd ("%".toList ++ decimal jobId ++ ": no such job.\n".toList)
          return none
        else return some (jobId - 1)

/-! ## Foreground and background -/

/-- A signal sent to the process group of a job. -/
def signalJob (environment : Environment) (job : Job) (signal : Int) :
    JobAction (Option KillError) := do
  record (.signalJob job (-job.pgid) signal)
  kill environment (-job.pgid) signal

/-- `put_job_in_foreground` -/
def putJobInForeground (environment : Environment) (index : Nat) : JobAction Bool := do
  match (← get).table.slot index with
  | none => return false
  | some job =>
      if !(← tcsetpgrp environment job.pgid) then return false
      else if (← signalJob environment job sigcont).isSome then return false
      else
        let (exitCode, job) ← blockingWaitForJob environment job
        setTable ((← get).table.write index (some job))
        if exitCode = -1 then return false
        else
          if isJobFinished job then
            let _ ← removeJob job.id
          else printJob job stderrFileno
          tcsetpgrp environment environment.shellPgid

/-- `continue_job_in_background` -/
def continueJobInBackground (environment : Environment) (index : Nat) : JobAction Bool := do
  match (← get).table.slot index with
  | none => return false
  | some job => return (← signalJob environment job sigcont).isNone

/-! ## The `jobs` built-in -/

mutual

/-- The lines of `print_children` for one child and its descendants. -/
def printTree (subjob : Subjob) (tabulation : Nat) (fd : Int) : ProcessTree → JobAction Unit
  | .node pid children => do
      dprintf fd ("\t".toList ++ List.replicate tabulation '\t' ++ "| \t".toList ++ decimal pid ++
        "\t".toList ++ jobStatusToString subjob.lastStatus ++ "\t".toList ++ subjob.command ++
        "\n".toList)
      printTrees subjob (tabulation + 1) fd children

def printTrees (subjob : Subjob) (tabulation : Nat) (fd : Int) : List ProcessTree → JobAction Unit
  | [] => return
  | tree :: rest => do
      printTree subjob tabulation fd tree
      printTrees subjob tabulation fd rest

end

/-- `print_children` -/
def printChildren (environment : Environment) (subjob : Subjob) (pid : Int) (tabulation : Nat)
    (fd : Int) : JobAction Unit := do
  let trees ← outcome fun count => environment.children count pid
  printTrees subjob tabulation fd trees

/-- The loop of `print_job_tree`, which reads every subjob. -/
def printSubjobTrees (environment : Environment) (fd : Int) :
    List (Option Subjob) → JobAction Unit
  | [] => return
  | none :: _ => throw .crashed
  | some subjob :: rest => do
      printSubjob subjob fd
      printChildren environment subjob subjob.pid 0 fd
      printSubjobTrees environment fd rest

/-- `print_job_tree` -/
def printJobTree (environment : Environment) (job : Job) (fd : Int) : JobAction Unit := do
  if job.subjobs ≠ [] then dprintf fd ("[".toList ++ decimal job.id ++ "]".toList)
  printSubjobTrees environment fd job.subjobs

/-- The final loop of `jobs_command`. -/
def printJobs (environment : Environment) (tree : Bool) (fd : Int) : List Job → JobAction Unit
  | [] => return
  | job :: rest => do
      if tree then printJobTree environment job fd else printJob job fd
      printJobs environment tree fd rest

/-- `jobs_command` after its options have been read. -/
def printSelectedJobs (environment : Environment) (call : CommandCall) (tree : Bool)
    (stringJobIndex : Nat) : JobAction Int := do
  let argument := call.argv.getD stringJobIndex []
  if call.argc > stringJobIndex ∧ startsWith argument ['%'] then
    match ← getJob argument call.stderr with
    | none => return 1
    | some index =>
        match (← get).table.slot index with
        | none => throw .crashed
        | some job =>
            if tree then printJobTree environment job call.stdout
            else printJob job call.stdout
            return 0
  else
    printJobs environment tree call.stdout (← get).table.jobs
    return 0

/-- `jobs_command` -/
def jobsCommand (environment : Environment) (call : CommandCall) : JobAction Int := do
  fdUpdateJobs environment call.stdout
  if call.argc > 3 then
    dprintf call.stderr "jobs: too many arguments\n".toList
    return 1
  else if call.argc > 1 ∧ call.argv.getD 1 [] = ['-', 't'] then
    printSelectedJobs environment call true 2
  else if call.argc = 3 ∧ call.argv.getD 2 [] = ['-', 't'] then
    printSelectedJobs environment call true 1
  else printSelectedJobs environment call false 1

end Jsh
