import Mathlib.Data.Finset.Erase
import Mathlib.Data.Finset.Insert
import Mathlib.Logic.Relation
import Jsh.Internals

/-!
# The shell and its children

`execute_as_job` with the children it forks, which run beside it. A child and the
shell talk over the two handshake pipes of `execute_single_command`, and every system
call of either may fail. The pipes are numbered in the order in which they are made, and
an `int` that is written or read is one element of the contents.
-/

set_option autoImplicit false

namespace Jsh

/-! ## The parties -/

/-- The ends of the handshake pipes that a process has open. -/
structure PipeEnds where
  reads : Finset Nat
  writes : Finset Nat
  deriving DecidableEq

def PipeEnds.none : PipeEnds := { reads := ∅, writes := ∅ }

def PipeEnds.opened (ends : PipeEnds) (pipe : Nat) : PipeEnds :=
  { reads := insert pipe ends.reads, writes := insert pipe ends.writes }

def PipeEnds.closeRead (ends : PipeEnds) (pipe : Nat) : PipeEnds :=
  { ends with reads := ends.reads.erase pipe }

def PipeEnds.closeWrite (ends : PipeEnds) (pipe : Nat) : PipeEnds :=
  { ends with writes := ends.writes.erase pipe }

/-- How far a child has come. -/
inductive ChildPhase where
  | forked
  | closing
  | reading
  | received (pgid : Int)
  | joining (pgid : Int)
  | joined (pgid : Int)
  | told
  | placing
  | starting
  | running
  | terminated
  deriving DecidableEq

/-- A child, with the pipes of its handshake. -/
structure ChildProcess where
  pid : Int
  call : CommandCall
  fd : Nat
  fd2 : Nat
  phase : ChildPhase
  group : Int
  /-- Whether it has been sent `SIGKILL`. -/
  killed : Bool
  ends : PipeEnds
  deriving DecidableEq

/-- How far the parent has come in the handshake with a child. -/
inductive Stage where
  | closingRead
  | closingWrite
  | writing
  | written
  | reading
  | answered
  deriving DecidableEq

/-- How far the parent has come with a call. -/
inductive ParentPhase where
  | calling
  | piped (fd : Nat)
  | forking (fd fd2 : Nat)
  | handshake (stage : Stage) (pid : Int) (fd fd2 : Nat)
  | killing (pid : Int)
  | failed
  | returned (info : Option InternalExitInfo)
  | dead
  deriving DecidableEq

/-- The parent, with the variables of `execute_as_job`, the pipes and the children. -/
structure System where
  calls : List CommandCall
  index : Nat
  info : Option InternalExitInfo
  job : Job
  phase : ParentPhase
  ends : PipeEnds
  made : Nat
  contents : Nat → List Int
  children : List ChildProcess

def System.start (command : Command) : System :=
  { calls := command.commandCalls
    index := 0
    info := none
    job := setupJob command
    phase := .calling
    ends := .none
    made := 0
    contents := fun _ => []
    children := [] }

/-- Some process can read from the pipe. -/
def System.Readable (system : System) (pipe : Nat) : Prop :=
  pipe ∈ system.ends.reads ∨ ∃ child ∈ system.children, pipe ∈ child.ends.reads

/-- Some process can write to the pipe. -/
def System.Writable (system : System) (pipe : Nat) : Prop :=
  pipe ∈ system.ends.writes ∨ ∃ child ∈ system.children, pipe ∈ child.ends.writes

/-! ## Steps of a child -/

/-- A child ends, which closes its descriptors. -/
def ChildProcess.exit (child : ChildProcess) : ChildProcess :=
  { child with phase := .terminated, ends := .none }

/-- One step of a child and what it leaves in the pipes. It ends when one of its calls
fails, when its program does, and when a signal ends it. -/
inductive ChildStep (contents : Nat → List Int) :
    ChildProcess → (Nat → List Int) → ChildProcess → Prop
  | close {child : ChildProcess} : child.phase = .forked →
      ChildStep contents child contents
        { child with phase := .closing, ends := child.ends.closeWrite child.fd }
  | closeOther {child : ChildProcess} : child.phase = .closing →
      ChildStep contents child contents
        { child with phase := .reading, ends := child.ends.closeRead child.fd2 }
  | read {child : ChildProcess} {pgid : Int} {rest : List Int} : child.phase = .reading →
      contents child.fd = pgid :: rest →
      ChildStep contents child (Function.update contents child.fd rest)
        { child with phase := .received pgid }
  | closeRead {child : ChildProcess} {pgid : Int} : child.phase = .received pgid →
      ChildStep contents child contents
        { child with phase := .joining pgid, ends := child.ends.closeRead child.fd }
  | setpgid {child : ChildProcess} {pgid : Int} : child.phase = .joining pgid →
      ChildStep contents child contents { child with phase := .joined pgid, group := pgid }
  | write {child : ChildProcess} {pgid : Int} : child.phase = .joined pgid →
      ChildStep contents child
        (Function.update contents child.fd2 (contents child.fd2 ++ [pgid]))
        { child with phase := .told }
  | closeWrite {child : ChildProcess} : child.phase = .told →
      ChildStep contents child contents
        { child with phase := .placing, ends := child.ends.closeWrite child.fd2 }
  | tcsetpgrp {child : ChildProcess} : child.phase = .placing →
      ChildStep contents child contents { child with phase := .starting }
  | execvp {child : ChildProcess} : child.phase = .starting →
      ChildStep contents child contents { child with phase := .running }
  | exit {child : ChildProcess} : child.phase ≠ .terminated →
      ChildStep contents child contents child.exit

/-! ## Steps of the parent -/

/-- The next iteration of the loop of `execute_as_job`. -/
def System.continued (system : System) (launched : InternalExitInfo) : System :=
  { system with
    calls := system.calls.tail
    index := system.index + 1
    info := if system.index = 0 then some launched else system.info
    job :=
      if launched.pid ≠ uninitializedPid then
        { system.job with
          subjobs := system.job.subjobs.set system.index
            ((system.calls.head?).map fun call => newSubjob call launched.pid .running) }
      else system.job
    phase := .calling }

/-- A pipe is made. -/
def System.piping (system : System) (phase : ParentPhase) : System :=
  { system with phase, made := system.made + 1, ends := system.ends.opened system.made }

/-- A child is forked, which has the descriptors of its parent. -/
def System.forked (system : System) (shellPgid : Int) (call : CommandCall) (pid : Int)
    (fd fd2 : Nat) : System :=
  { system with
    phase := .handshake .closingRead pid fd fd2
    job := if system.job.pgid = 0 then { system.job with pgid := pid } else system.job
    children := system.children ++
      [{ pid, call, fd, fd2, phase := .forked, group := shellPgid, killed := false,
         ends := system.ends }] }

/-- `SIGKILL` is sent to some of the children. -/
def System.kill (system : System) (target : ChildProcess → Bool) : System :=
  { system with
    children := system.children.map fun child =>
      if target child then { child with killed := true } else child }

/-- One step of the parent. A write to a pipe that nobody can read from kills it. -/
inductive ParentStep (shellPgid : Int) : System → System → Prop
  | finish {system : System} : system.phase = .calling → system.calls = [] →
      ParentStep shellPgid system { system with phase := .returned system.info }
  | internal {system : System} {call : CommandCall} {rest : List CommandCall} (exitCode : Int) :
      system.phase = .calling → system.calls = call :: rest → isInternalCommand call = true →
      ParentStep shellPgid system (system.continued { pid := uninitializedPid, exitCode })
  | pipe {system : System} {call : CommandCall} {rest : List CommandCall} :
      system.phase = .calling → system.calls = call :: rest → isInternalCommand call = false →
      ParentStep shellPgid system (system.piping (.piped system.made))
  | pipeFails {system : System} {call : CommandCall} {rest : List CommandCall} :
      system.phase = .calling → system.calls = call :: rest → isInternalCommand call = false →
      ParentStep shellPgid system { system with phase := .failed }
  | pipeAgain {system : System} {fd : Nat} : system.phase = .piped fd →
      ParentStep shellPgid system (system.piping (.forking fd system.made))
  | pipeAgainFails {system : System} {fd : Nat} : system.phase = .piped fd →
      ParentStep shellPgid system { system with phase := .failed }
  | fork {system : System} {call : CommandCall} {rest : List CommandCall} {pid : Int} {fd fd2 : Nat} :
      system.phase = .forking fd fd2 → system.calls = call :: rest → 0 < pid →
      ParentStep shellPgid system (system.forked shellPgid call pid fd fd2)
  | forkFails {system : System} {fd fd2 : Nat} : system.phase = .forking fd fd2 →
      ParentStep shellPgid system { system with phase := .failed }
  | closeRead {system : System} {pid : Int} {fd fd2 : Nat} :
      system.phase = .handshake .closingRead pid fd fd2 →
      ParentStep shellPgid system
        { system with
          phase := .handshake .closingWrite pid fd fd2, ends := system.ends.closeRead fd }
  | closeWrite {system : System} {pid : Int} {fd fd2 : Nat} :
      system.phase = .handshake .closingWrite pid fd fd2 →
      ParentStep shellPgid system
        { system with phase := .handshake .writing pid fd fd2, ends := system.ends.closeWrite fd2 }
  | write {system : System} {pid : Int} {fd fd2 : Nat} :
      system.phase = .handshake .writing pid fd fd2 → system.Readable fd →
      ParentStep shellPgid system
        { system with
          phase := .handshake .written pid fd fd2
          contents := Function.update system.contents fd
            (system.contents fd ++ [system.job.pgid]) }
  | writeFails {system : System} {pid : Int} {fd fd2 : Nat} :
      system.phase = .handshake .writing pid fd fd2 →
      ParentStep shellPgid system { system with phase := .killing pid }
  | writeKills {system : System} {pid : Int} {fd fd2 : Nat} :
      system.phase = .handshake .writing pid fd fd2 → ¬ system.Readable fd →
      ParentStep shellPgid system { system with phase := .dead, ends := .none }
  | closeWritten {system : System} {pid : Int} {fd fd2 : Nat} :
      system.phase = .handshake .written pid fd fd2 →
      ParentStep shellPgid system
        { system with phase := .handshake .reading pid fd fd2, ends := system.ends.closeWrite fd }
  | read {system : System} {pid value : Int} {rest : List Int} {fd fd2 : Nat} :
      system.phase = .handshake .reading pid fd fd2 → system.contents fd2 = value :: rest →
      ParentStep shellPgid system
        { system with
          phase := .handshake .answered pid fd fd2
          contents := Function.update system.contents fd2 rest }
  | readFails {system : System} {pid : Int} {fd fd2 : Nat} :
      system.phase = .handshake .reading pid fd fd2 →
      ParentStep shellPgid system { system with phase := .killing pid }
  | closeAnswered {system : System} {pid : Int} {fd fd2 : Nat} :
      system.phase = .handshake .answered pid fd fd2 →
      ParentStep shellPgid system
        ({ system with ends := system.ends.closeRead fd2 }.continued
          { pid, exitCode := uninitializedExitCode })
  | kill {system : System} {pid : Int} : system.phase = .killing pid →
      ParentStep shellPgid system
        { system.kill fun child => child.pid = pid with phase := .failed }
  | killGroup {system : System} : system.phase = .failed → system.job.pgid ≠ 0 →
      ParentStep shellPgid system
        { system.kill fun child => child.group = system.job.pgid with phase := .returned none }
  | giveUp {system : System} : system.phase = .failed → system.job.pgid = 0 →
      ParentStep shellPgid system { system with phase := .returned none }

/-- One step of one of the parties. -/
inductive SystemStep (shellPgid : Int) : System → System → Prop
  | parent {start finish : System} : ParentStep shellPgid start finish →
      SystemStep shellPgid start finish
  | child {system : System} {earlier later : List ChildProcess} {child child' : ChildProcess}
      {contents : Nat → List Int} : system.children = earlier ++ child :: later →
      ChildStep system.contents child contents child' →
      SystemStep shellPgid system
        { system with contents, children := earlier ++ child' :: later }

/-- The states of the execution of a command by `execute_as_job`. -/
def System.Reachable (shellPgid : Int) (command : Command) (system : System) : Prop :=
  Relation.ReflTransGen (SystemStep shellPgid) (System.start command) system

/-! ## Waiting -/

/-- The parent is blocked in its `read`. -/
def System.ParentWaits (system : System) : Prop :=
  ∃ pid fd fd2, system.phase = .handshake .reading pid fd fd2 ∧ system.contents fd2 = [] ∧
    system.Writable fd2

/-- A child is blocked in its `read`. -/
def System.ChildWaits (system : System) (child : ChildProcess) : Prop :=
  child.phase = .reading ∧ system.contents child.fd = [] ∧ system.Writable child.fd

end Jsh
