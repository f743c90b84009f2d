import Jsh.HandshakeProperties

/-!
# The terminal

`execute_external_command` and `put_job_in_foreground` beside the processes of the job.
Each process of a command in the foreground gives the terminal to its process group, at
any moment after the handshake; the shell takes it back once it has waited for the job.
-/

set_option autoImplicit false

namespace Jsh

/-! ## One command -/

/-- A command whose calls are launched. Its processes take the terminal when it is in the
foreground. -/
structure Launch where
  foreground : Bool
  system : System

/-- The job of the command has been launched. -/
def Launch.Finished (launch : Launch) : Prop :=
  ∃ info, launch.system.phase = .returned (some info)

/-- How far the shell has come: it launches a job, or brings one to the foreground with
`fg`, waits for its processes in their order, and takes the terminal back. -/
inductive SessionStage where
  | launching
  | giving
  | continuing
  | waiting (fg : Bool) (waited : Nat)
  | taking
  | prompt
  deriving DecidableEq

/-- The execution of a command, or of `fg` on the job of one. -/
structure Session extends Launch where
  terminal : Int
  stage : SessionStage

/-- `execute_external_command`. -/
def Session.execute (command : Command) (terminal : Int) : Session :=
  { foreground := !command.background
    system := System.start command
    terminal
    stage := .launching }

/-- `put_job_in_foreground` on the job of an earlier command. -/
def Session.recall (launch : Launch) (terminal : Int) : Session :=
  { launch with terminal, stage := .giving }

/-- What may go wrong in a step. -/
inductive Incident where
  | none
  | refused
  | stopped (child : ChildProcess)
  | waitFailed (fg : Bool)
  | signalFailed
  deriving DecidableEq

/-- The launch has failed. -/
def ParentPhase.refuses : ParentPhase → Bool
  | .killing _ | .failed => true
  | _ => false

/-- A step of the parent in which one of its system calls fails. -/
def System.Refuses (start finish : System) : Prop :=
  start.phase.refuses = false ∧ finish.phase.refuses = true

/-- The owner of the terminal after a step of a child. -/
def Launch.taken (launch : Launch) (terminal : Int) (child child' : ChildProcess) : Int :=
  if launch.foreground = true ∧ child.phase = .placing ∧ child'.phase = .starting then child.group
  else terminal

/-- One step of a child, and what becomes of the terminal. -/
inductive LaunchStep (terminal : Int) : Launch → Int → Launch → Prop
  | child {launch : Launch} {earlier later : List ChildProcess} {child child' : ChildProcess}
      {contents : Nat → List Int} : launch.system.children = earlier ++ child :: later →
      ChildStep launch.system.contents child contents child' →
      LaunchStep terminal launch (launch.taken terminal child child')
        { launch with system := launch.system.after contents (earlier ++ child' :: later) }

/-- One step of the shell or of a process of the command. `tcsetpgrp` back to the shell's own
group succeeds. -/
inductive SessionStep (shellPgid : Int) : Session → Incident → Session → Prop
  | child {session : Session} {terminal : Int} {launch : Launch} :
      LaunchStep session.terminal session.toLaunch terminal launch →
      SessionStep shellPgid session .none { launch with terminal, stage := session.stage }
  | launch {session : Session} {finish : System} : session.stage = .launching →
      ParentStep shellPgid session.system finish → ¬ session.system.Refuses finish →
      SessionStep shellPgid session .none { session with system := finish }
  | refuse {session : Session} {finish : System} : session.stage = .launching →
      ParentStep shellPgid session.system finish → session.system.Refuses finish →
      SessionStep shellPgid session .refused { session with system := finish }
  | fail {session : Session} : session.stage = .launching →
      session.system.phase = .returned none →
      SessionStep shellPgid session .none { session with stage := .prompt }
  | keep {session : Session} {info : InternalExitInfo} : session.stage = .launching →
      session.system.phase = .returned (some info) → session.foreground = false →
      SessionStep shellPgid session .none { session with stage := .prompt }
  | wait {session : Session} {info : InternalExitInfo} : session.stage = .launching →
      session.system.phase = .returned (some info) → session.foreground = true →
      SessionStep shellPgid session .none { session with stage := .waiting false 0 }
  | give {session : Session} : session.stage = .giving →
      SessionStep shellPgid session .none
        { session with stage := .continuing, terminal := session.system.job.pgid }
  | giveFails {session : Session} : session.stage = .giving →
      SessionStep shellPgid session .none { session with stage := .prompt }
  | signal {session : Session} : session.stage = .continuing →
      SessionStep shellPgid session .none { session with stage := .waiting true 0 }
  | signalFails {session : Session} : session.stage = .continuing →
      SessionStep shellPgid session .signalFailed { session with stage := .prompt }
  | ended {session : Session} {fg : Bool} {waited : Nat} {child : ChildProcess} :
      session.stage = .waiting fg waited → session.system.children[waited]? = some child →
      child.phase = .terminated →
      SessionStep shellPgid session .none { session with stage := .waiting fg (waited + 1) }
  | stopped {session : Session} {fg : Bool} {waited : Nat} {child : ChildProcess} :
      session.stage = .waiting fg waited → session.system.children[waited]? = some child →
      child.phase ≠ .terminated →
      SessionStep shellPgid session (.stopped child)
        { session with stage := .waiting fg (waited + 1) }
  | waited {session : Session} {fg : Bool} {waited : Nat} :
      session.stage = .waiting fg waited → session.system.children.length ≤ waited →
      SessionStep shellPgid session .none { session with stage := .taking }
  | waitFails {session : Session} {fg : Bool} {waited : Nat} {child : ChildProcess} :
      session.stage = .waiting fg waited → session.system.children[waited]? = some child →
      SessionStep shellPgid session (.waitFailed fg)
        { session with stage := if fg then .prompt else .taking }
  | take {session : Session} : session.stage = .taking →
      SessionStep shellPgid session .none
        { session with stage := .prompt, terminal := shellPgid }

/-! ## The commands of a shell -/

/-- The command being executed, the one whose pipeline has called it when it is `fg`, and the
commands before, whose processes may still run. -/
structure Sessions where
  current : Session
  outer : Option Launch
  past : List Launch

/-- The shell executes its first command. -/
def Sessions.start (command : Command) (shellPgid : Int) : Sessions :=
  { current := .execute command shellPgid, outer := none, past := [] }

/-- Control is at the prompt loop. -/
def Sessions.AtPrompt (sessions : Sessions) : Prop :=
  sessions.current.stage = .prompt ∧ sessions.outer = none

/-- One step of the shell or of any process. -/
inductive SessionsStep (shellPgid : Int) : Sessions → Incident → Sessions → Prop
  | current {sessions : Sessions} {incident : Incident} {current : Session} :
      SessionStep shellPgid sessions.current incident current →
      SessionsStep shellPgid sessions incident { sessions with current }
  | outer {sessions : Sessions} {terminal : Int} {launch launch' : Launch} :
      sessions.outer = some launch →
      LaunchStep sessions.current.terminal launch terminal launch' →
      SessionsStep shellPgid sessions .none
        { sessions with current := { sessions.current with terminal }, outer := some launch' }
  | past {sessions : Sessions} {earlier later : List Launch} {terminal : Int}
      {launch launch' : Launch} : sessions.past = earlier ++ launch :: later →
      LaunchStep sessions.current.terminal launch terminal launch' →
      SessionsStep shellPgid sessions .none
        { sessions with
          current := { sessions.current with terminal }, past := earlier ++ launch' :: later }
  | execute {sessions : Sessions} (command : Command) : sessions.AtPrompt →
      SessionsStep shellPgid sessions .none
        { current := .execute command sessions.current.terminal
          outer := none
          past := sessions.current.toLaunch :: sessions.past }
  | fg {sessions : Sessions} {earlier later : List Launch} {launch : Launch} : sessions.AtPrompt →
      sessions.current.toLaunch :: sessions.past = earlier ++ launch :: later →
      launch.Finished →
      SessionsStep shellPgid sessions .none
        { current := .recall launch sessions.current.terminal
          outer := none
          past := earlier ++ later }
  | call {sessions : Sessions} {earlier later : List Launch} {launch : Launch}
      {call : CommandCall} {rest : List CommandCall} : sessions.current.stage = .launching →
      sessions.outer = none → sessions.current.system.phase = .calling →
      sessions.current.system.calls = call :: rest → call.name = "fg".toList →
      sessions.past = earlier ++ launch :: later → launch.Finished →
      SessionsStep shellPgid sessions .none
        { current := .recall launch sessions.current.terminal
          outer := some sessions.current.toLaunch
          past := earlier ++ later }
  | finish {sessions : Sessions} {launch : Launch} (exitCode : Int) :
      sessions.current.stage = .prompt → sessions.outer = some launch →
      SessionsStep shellPgid sessions .none
        { current :=
            { foreground := launch.foreground
              system := launch.system.continued { pid := uninitializedPid, exitCode }
              terminal := sessions.current.terminal
              stage := .launching }
          outer := none
          past := sessions.current.toLaunch :: sessions.past }

/-! ## What keeps the terminal with the shell -/

/-- A child in this phase does not take the terminal any more. -/
def ChildPhase.hasTaken : ChildPhase → Bool
  | .starting | .running | .terminated => true
  | _ => false

/-- A failure of the launch comes before any child can take the terminal. -/
def System.Harmless (system : System) : Prop :=
  match system.phase with
  | .handshake .writing _ _ _ => system.children.length = 1
  | .handshake .reading _ _ fd2 => ∃ child, system.children = [child] ∧
      child.phase = .terminated ∧ system.contents fd2 = []
  | _ => system.children = []

/-- The launch of a command in the foreground fails before a child can take the terminal or
not at all, a process that stops or cannot be waited for has taken the terminal already,
and `fg` can signal its job and wait for it. -/
def Session.Regular (session : Session) : Incident → Prop
  | .none => True
  | .refused => session.foreground = true → session.system.Harmless
  | .stopped child => session.foreground = true → child.phase.hasTaken = true
  | .waitFailed fg => fg = false ∧ (session.foreground = true →
      ∀ child ∈ session.system.children, child.phase.hasTaken = true)
  | .signalFailed => False

/-- One step that is regular. -/
def RegularStep (shellPgid : Int) (start finish : Sessions) : Prop :=
  ∃ incident, SessionsStep shellPgid start incident finish ∧ start.current.Regular incident

/-- The states of a shell that begins with a command. -/
def Sessions.Reachable (shellPgid : Int) (command : Command) (sessions : Sessions) : Prop :=
  Relation.ReflTransGen (fun start finish => ∃ incident, SessionsStep shellPgid start incident finish)
    (.start command shellPgid) sessions

/-- The states in the runs whose steps are all regular. -/
def Sessions.RegularlyReached (shellPgid : Int) (command : Command) (sessions : Sessions) : Prop :=
  Relation.ReflTransGen (RegularStep shellPgid) (.start command shellPgid) sessions

end Jsh
