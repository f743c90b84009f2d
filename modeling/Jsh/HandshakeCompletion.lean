import Jsh.HandshakeProperties
import Jsh.Library.Termination

/-!
# The end of the handshakes

`execute_as_job` and its children take a bounded number of steps together, and as long as
no call has failed somebody can go on, until the parent has returned with all calls launched
and the children have come to their programs.
-/

set_option autoImplicit false

namespace Jsh

open Library

/-! ## The steps that remain -/

def ChildPhase.remaining : ChildPhase → Nat
  | .forked => 10
  | .closing => 9
  | .reading => 8
  | .received _ => 7
  | .joining _ => 6
  | .joined _ => 5
  | .told => 4
  | .placing => 3
  | .starting => 2
  | .running => 1
  | .terminated => 0

def Stage.remaining : Stage → Nat
  | .closingRead => 8
  | .closingWrite => 7
  | .writing => 6
  | .written => 5
  | .reading => 4
  | .answered => 3

/-- The steps the parent and the children it has not forked can still take, when so many
calls follow the one the parent is concerned with. -/
def ParentPhase.remaining (later : Nat) : ParentPhase → Nat
  | .calling => 0
  | .piped _ => 21 * later + 21
  | .forking _ _ => 21 * later + 20
  | .handshake stage _ _ _ => 21 * later + stage.remaining + 1
  | .killing _ => 2
  | .failed => 1
  | .returned _ => 0
  | .dead => 0

/-- More than the number of steps any of the parties can still take. -/
def System.remaining (system : System) : Nat :=
  (system.children.map (·.phase.remaining)).sum +
    if system.phase = .calling then 21 * system.calls.length + 1
    else system.phase.remaining system.calls.tail.length

theorem ChildStep.remaining {contents contents' : Nat → List Int} {child child' : ChildProcess}
    (step : ChildStep contents child contents' child') :
    child'.phase.remaining < child.phase.remaining := by
  cases step with
  | exit alive => cases phase : child.phase <;> simp_all [ChildProcess.exit, ChildPhase.remaining]
  | _ phase => simp [phase, ChildPhase.remaining]

theorem ParentStep.remaining {shellPgid : Int} {start finish : System}
    (step : ParentStep shellPgid start finish) : finish.remaining < start.remaining := by
  have killed : ∀ (system : System) (target : ChildProcess → Bool),
      (system.kill target).children.map (·.phase.remaining) =
        system.children.map (·.phase.remaining) := by
    intro system target
    rw [System.kill, List.map_map]
    refine List.map_congr_left fun child _ => ?_
    dsimp only [Function.comp_apply]
    split <;> rfl
  cases step with
  | finish phase calls => simp [System.remaining, phase, calls, ParentPhase.remaining]
  | internal _ phase calls => simp [System.remaining, System.continued, phase, calls]
  | pipe phase calls =>
      simp [System.remaining, System.piping, phase, calls, ParentPhase.remaining]
      omega
  | pipeFails phase calls => simp [System.remaining, phase, calls, ParentPhase.remaining]
  | fork phase =>
      simp [System.remaining, System.forked, phase, ParentPhase.remaining, ChildPhase.remaining,
        Stage.remaining]
      omega
  | closeAnswered phase =>
      simp [System.remaining, System.continued, phase, ParentPhase.remaining, Stage.remaining]
  | kill phase => simp [System.remaining, killed, phase, ParentPhase.remaining]
  | killGroup phase => simp [System.remaining, killed, phase, ParentPhase.remaining]
  | _ phase =>
      simp [System.remaining, System.piping, phase, ParentPhase.remaining, Stage.remaining]

/-- Every step of a party leaves fewer. -/
theorem systemStep_lowers (shellPgid : Int) : Lowers (SystemStep shellPgid) System.remaining := by
  intro start finish step
  cases step with
  | parent step => exact step.remaining
  | child split step =>
      have less := step.remaining
      simp only [System.remaining, split, List.map_append, List.map_cons, List.sum_append,
        List.sum_cons]
      omega

/-! ## What the parent has launched -/

/-- The calls that get a process. -/
def externalCalls (calls : List CommandCall) : List CommandCall :=
  calls.filter fun call => !isInternalCommand call

/-- The calls that have no process yet. -/
def System.owed (system : System) : List CommandCall :=
  match system.phase with
  | .handshake _ _ _ _ => externalCalls system.calls.tail
  | _ => externalCalls system.calls

/-- The parent is launching a process for the first of the calls. -/
def ParentPhase.launches : ParentPhase → Bool
  | .piped _ | .forking _ _ | .handshake _ _ _ _ => true
  | _ => false

/-- A call of the parent has failed. -/
def ParentPhase.fails : ParentPhase → Bool
  | .killing _ | .failed | .returned none | .dead => true
  | _ => false

/-- What a stage of the handshake says about the answer of the child. -/
def System.Awaits (system : System) (child : ChildProcess) : Stage → Prop
  | .closingRead | .closingWrite | .writing =>
      system.contents child.fd = [] ∧ system.contents child.fd2 = [] ∧
        (child.phase = .terminated ∨ child.phase.expects = true ∧ child.fd ∈ child.ends.reads)
  | .written | .reading =>
      child.phase.hasTold = true → child.phase = .terminated ∨ system.contents child.fd2 ≠ []
  | .answered => True

structure System.OnTrack (command : Command) (system : System) : Prop where
  first : system.index = 0 → system.calls = command.commandCalls
  current : system.phase.launches = true →
    ∃ call rest, system.calls = call :: rest ∧ isInternalCommand call = false
  launched : system.phase.fails = false →
    system.children.map (·.call) ++ system.owed = externalCalls command.commandCalls
  finished : ∀ info, system.phase = .returned (some info) → system.calls = []
  opened : ∀ fd, system.phase = .piped fd ∨ (∃ fd2, system.phase = .forking fd fd2) →
    fd ∈ system.ends.reads
  awaits : ∀ stage pid fd fd2, system.phase = .handshake stage pid fd fd2 →
    ∀ child ∈ system.children, child.fd2 = fd2 → system.Awaits child stage

theorem ParentPhase.launches_of_fails {phase : ParentPhase} (fails : phase.fails = true) :
    phase.launches = false := by
  cases phase <;> first | rfl | cases fails

theorem ChildPhase.hasTold_of_expects {phase : ChildPhase} (expects : phase.expects = true) :
    phase.hasTold = false := by
  cases phase <;> first | rfl | cases expects

theorem System.onTrack_start (command : Command) : (System.start command).OnTrack command := by
  constructor
  case first => exact fun _ => rfl
  case launched => exact fun _ => rfl
  all_goals simp [System.start, ParentPhase.launches]

theorem ChildStep.awaits {system : System} {contents : Nat → List Int}
    {children : List ChildProcess} {child child' : ChildProcess} {stage : Stage}
    (step : ChildStep system.contents child contents child') (pipes : child.fd < child.fd2)
    (awaits : system.Awaits child stage) :
    (system.after contents children).Awaits child' stage := by
  cases stage with
  | answered => trivial
  | written | reading =>
      cases step with
      | write phase => exact fun _ => .inr (by simp [System.after])
      | exit => exact fun _ => .inl rfl
      | closeWrite phase | tcsetpgrp phase | execvp phase =>
          change child.phase.hasTold = true → child.phase = .terminated ∨ _ at awaits
          rw [phase] at awaits
          exact fun _ => .inr ((awaits rfl).resolve_left fun ended => by cases ended)
      | _ => exact fun told => by cases told
  | closingRead | closingWrite | writing =>
      obtain ⟨unsent, unanswered, waiting⟩ := awaits
      cases waiting with
      | inl ended =>
          cases step with
          | exit alive => exact absurd ended alive
          | _ phase =>
              rw [ended] at phase
              cases phase
      | inr waiting =>
          obtain ⟨expects, opened⟩ := waiting
          cases step with
          | close => exact ⟨unsent, unanswered, .inr ⟨rfl, opened⟩⟩
          | closeOther =>
              refine ⟨unsent, unanswered, .inr ⟨rfl, ?_⟩⟩
              exact Finset.mem_erase.mpr ⟨Nat.ne_of_lt pipes, opened⟩
          | read _ sent =>
              rw [unsent] at sent
              cases sent
          | exit => exact ⟨unsent, unanswered, .inl rfl⟩
          | _ phase =>
              rw [phase] at expects
              cases expects

theorem System.OnTrack.childStep {command : Command} {system : System}
    {earlier later : List ChildProcess} {child child' : ChildProcess} {contents : Nat → List Int}
    (onTrack : system.OnTrack command) (invariant : system.Invariant)
    (split : system.children = earlier ++ child :: later)
    (step : ChildStep system.contents child contents child') :
    (system.after contents (earlier ++ child' :: later)).OnTrack command := by
  have moved := step.moved
  have call : child'.call = child.call := by cases step <;> rfl
  have apart := invariant.apart
  rw [split, List.pairwise_append, List.pairwise_cons] at apart
  obtain ⟨_, ⟨after, _⟩, before⟩ := apart
  have own : child ∈ system.children := by simp [split]
  have pipes := (invariant.coherent child own).pipes
  constructor
  case first => exact onTrack.first
  case current => exact onTrack.current
  case launched =>
    intro going
    rw [← onTrack.launched going]
    simp [System.after, System.owed, split, call]
  case finished => exact onTrack.finished
  case opened => exact onTrack.opened
  case awaits =>
    intro stage pid fd fd2 phase other member same
    have others : ∀ other ∈ system.children, other.fd2 = fd2 → other.fd2 < child.fd ∨
        child.fd2 < other.fd → (system.after contents (earlier ++ child' :: later)).Awaits other
          stage := by
      intro other member same away
      have awaits := onTrack.awaits stage pid fd fd2 phase other member same
      have own' := (invariant.coherent other member).pipes
      have fd : contents other.fd = system.contents other.fd :=
        moved.others _ (by omega) (by omega)
      have fd2 : contents other.fd2 = system.contents other.fd2 :=
        moved.others _ (by omega) (by omega)
      cases stage with
      | answered => trivial
      | _ => simpa only [System.Awaits, System.after, fd, fd2] using awaits
    rcases List.mem_append.mp member with first | rest
    · refine others other (by simp [split, first]) same (.inl ?_)
      exact before other first child (.head _)
    · cases List.mem_cons.mp rest with
      | inl here =>
          subst here
          rw [moved.fd2] at same
          exact step.awaits pipes (onTrack.awaits stage pid fd fd2 phase child own same)
      | inr last => exact others other (by simp [split, last]) same (.inr (after other last))

section ParentStep

variable {command : Command} {system : System}

theorem System.OnTrack.failing (onTrack : system.OnTrack command) {finish : System}
    (index : finish.index = system.index) (calls : finish.calls = system.calls)
    (fails : finish.phase.fails = true) : finish.OnTrack command := by
  have other : ∀ phase, finish.phase = phase → phase.fails = true := fun _ same => same ▸ fails
  constructor
  case first =>
    intro none
    rw [calls]
    exact onTrack.first (index ▸ none)
  case current =>
    intro launches
    rw [ParentPhase.launches_of_fails fails] at launches
    cases launches
  case launched =>
    intro going
    rw [fails] at going
    cases going
  case finished => exact fun _ phase => nomatch other _ phase
  case opened =>
    intro fd phase
    rcases phase with phase | ⟨_, phase⟩
    · exact nomatch other _ phase
    · exact nomatch other _ phase
  case awaits => exact fun _ _ _ _ phase => nomatch other _ phase

/-- The next stage of a handshake. -/
theorem System.OnTrack.staged (onTrack : system.OnTrack command) {stage stage' : Stage} {pid : Int}
    {fd fd2 : Nat} (phase : system.phase = .handshake stage pid fd fd2) {ends : PipeEnds}
    {contents : Nat → List Int} (awaits : ∀ child ∈ system.children, child.fd2 = fd2 →
      system.Awaits child stage → ({ system with contents } : System).Awaits child stage') :
    ({ system with phase := .handshake stage' pid fd fd2, ends, contents } : System).OnTrack
      command := by
  constructor
  case first => exact onTrack.first
  case current => exact fun _ => onTrack.current (by rw [phase]; rfl)
  case launched =>
    intro _
    rw [← onTrack.launched (by rw [phase]; rfl)]
    simp only [System.owed, phase]
  case finished => exact fun _ ended => by cases ended
  case opened => simp
  case awaits =>
    rintro _ _ _ _ ⟨⟩ child member same
    have before := onTrack.awaits stage pid fd fd2 phase child member same
    have after := awaits child member same before
    cases stage' <;> exact after

/-- The next call. -/
theorem System.onTrack_continued {launched : InternalExitInfo}
    (counted : system.children.map (·.call) ++ externalCalls system.calls.tail =
      externalCalls command.commandCalls) : (system.continued launched).OnTrack command := by
  constructor
  case launched => exact fun _ => counted
  all_goals simp [System.continued, ParentPhase.launches]

theorem System.OnTrack.parentStep {shellPgid : Int} {finish : System}
    (onTrack : system.OnTrack command) (invariant : system.Invariant)
    (step : ParentStep shellPgid system finish) : finish.OnTrack command := by
  cases step with
  | finish phase calls =>
      constructor
      case first => exact onTrack.first
      case launched =>
        intro _
        rw [← onTrack.launched (by rw [phase]; rfl)]
        simp only [System.owed, phase]
      case finished => exact fun _ _ => calls
      all_goals simp [ParentPhase.launches]
  | internal _ phase calls own =>
      refine System.onTrack_continued ?_
      rw [← onTrack.launched (by rw [phase]; rfl)]
      simp [System.owed, phase, calls, externalCalls, own]
  | pipe phase calls own =>
      constructor
      case first => exact onTrack.first
      case current => exact fun _ => ⟨_, _, calls, own⟩
      case launched =>
        intro _
        rw [← onTrack.launched (by rw [phase]; rfl)]
        simp only [System.piping, System.owed, phase]
      case opened =>
        intro fd opening
        rcases opening with piped | ⟨_, forking⟩
        · cases piped
          exact Finset.mem_insert_self _ system.ends.reads
        · cases forking
      case finished => exact fun _ ended => by cases ended
      case awaits => exact fun _ _ _ _ waiting => by cases waiting
  | pipeAgain phase =>
      constructor
      case first => exact onTrack.first
      case current => exact fun _ => onTrack.current (by rw [phase]; rfl)
      case launched =>
        intro _
        rw [← onTrack.launched (by rw [phase]; rfl)]
        simp only [System.piping, System.owed, phase]
      case opened =>
        intro fd opening
        rcases opening with piped | ⟨_, forking⟩
        · cases piped
        · cases forking
          exact Finset.mem_insert_of_mem (onTrack.opened _ (.inl phase))
      case finished => exact fun _ ended => by cases ended
      case awaits => exact fun _ _ _ _ waiting => by cases waiting
  | @fork call rest pid fd fd2 phase calls positive =>
      obtain ⟨first, others, same, own⟩ := onTrack.current (by rw [phase]; rfl)
      rw [calls] at same
      cases same
      have progress := invariant.progress
      rw [phase] at progress
      obtain ⟨idle, next, _⟩ := progress
      have above : ∀ child ∈ system.children, child.fd < child.fd2 ∧ child.fd2 < fd :=
        fun child member => ⟨(invariant.coherent child member).pipes, idle.free child member⟩
      have unused : ∀ pipe, fd ≤ pipe → system.contents pipe = [] := by
        intro pipe late
        refine invariant.unused pipe fun child member => ?_
        have below := above child member
        omega
      constructor
      case first => exact onTrack.first
      case current => exact fun _ => ⟨call, rest, calls, own⟩
      case launched =>
        intro _
        rw [← onTrack.launched (by rw [phase]; rfl)]
        simp [System.forked, System.owed, phase, calls, externalCalls, own]
      case awaits =>
        rintro _ _ _ _ ⟨⟩ child member same
        cases List.mem_append.mp member with
        | inl earlier =>
            have below := above child earlier
            omega
        | inr here =>
            cases List.mem_singleton.mp here
            refine ⟨unused fd (Nat.le_refl _), unused fd2 (by omega), .inr ⟨rfl, ?_⟩⟩
            exact onTrack.opened fd (.inr ⟨fd2, phase⟩)
      all_goals simp [System.forked]
  | closeRead phase | closeWrite phase => exact onTrack.staged phase fun _ _ _ awaits => awaits
  | closeWritten phase => exact onTrack.staged phase fun _ _ _ awaits => awaits
  | write phase =>
      refine onTrack.staged phase fun child member same awaits told => ?_
      cases awaits.2.2 with
      | inl ended => exact .inl ended
      | inr expecting =>
          rw [ChildPhase.hasTold_of_expects expecting.1] at told
          cases told
  | read phase => exact onTrack.staged phase fun _ _ _ _ => trivial
  | closeAnswered phase =>
      refine System.onTrack_continued ?_
      rw [← onTrack.launched (by rw [phase]; rfl)]
      simp only [System.owed, phase]
  | _ => exact onTrack.failing rfl rfl rfl

end ParentStep

theorem System.Reachable.onTrack {shellPgid : Int} {command : Command} {system : System}
    (reached : system.Reachable shellPgid command) : system.OnTrack command := by
  induction reached with
  | refl => exact System.onTrack_start command
  | tail earlier step ih =>
      have invariant : System.Invariant _ := System.Reachable.invariant earlier
      cases step with
      | parent step => exact ih.parentStep invariant step
      | child split step => exact ih.childStep invariant split step

/-! ## Nobody is stuck -/

/-- No call has failed so far: the parent has not given up, and the child it is concerned
with has not ended without an answer. -/
def System.Clean (system : System) : Prop :=
  match system.phase with
  | .killing _ | .failed | .returned none | .dead => False
  | .handshake .answered _ _ _ => True
  | .handshake _ _ _ fd2 => ∀ child ∈ system.children, child.fd2 = fd2 →
      child.phase = .terminated → system.contents fd2 ≠ []
  | _ => True

/-- The child has come to its program, or has ended. -/
def ChildProcess.Started (child : ChildProcess) : Prop :=
  child.phase = .running ∨ child.phase = .terminated

/-- The processes of the children, in the order of their launches. -/
def System.forks (system : System) : List (Int × CommandCall) :=
  system.children.map fun child => (child.pid, child.call)

/-- The parent is in the same handshake, and nothing else has changed for it. -/
structure System.Talks (system next : System) : Prop where
  phase : ∀ stage pid fd fd2, system.phase = .handshake stage pid fd fd2 →
    ∃ stage', next.phase = .handshake stage' pid fd fd2
  calls : next.calls = system.calls
  index : next.index = system.index
  info : next.info = system.info
  job : next.job = system.job
  forks : next.forks = system.forks

instance : Std.Refl System.Talks where
  refl _ := ⟨fun stage _ _ _ phase => ⟨stage, phase⟩, rfl, rfl, rfl, rfl, rfl⟩

instance : IsTrans System System.Talks where
  trans _ _ _ before after := by
    constructor
    case phase =>
      intro stage pid fd fd2 phase
      obtain ⟨stage', phase'⟩ := before.phase stage pid fd fd2 phase
      exact after.phase stage' pid fd fd2 phase'
    case calls => exact after.calls.trans before.calls
    case index => exact after.index.trans before.index
    case info => exact after.info.trans before.info
    case job => exact after.job.trans before.job
    case forks => exact after.forks.trans before.forks

section Progress

variable {shellPgid : Int} {command : Command} {system : System} {pid : Int} {fd fd2 : Nat}

/-- A step of the parent in a handshake. -/
theorem System.talks_stage {stage stage' : Stage}
    (phase : system.phase = .handshake stage pid fd fd2) (ends : PipeEnds)
    (contents : Nat → List Int) :
    system.Talks { system with phase := .handshake stage' pid fd fd2, ends, contents } := by
  refine ⟨fun _ _ _ _ same => ?_, rfl, rfl, rfl, rfl, rfl⟩
  rw [phase] at same
  cases same
  exact ⟨stage', rfl⟩

/-- A step of the child the parent waits for. -/
theorem System.Current.talks {earlier : List ChildProcess} {last last' : ChildProcess}
    {contents : Nat → List Int} (invariant : system.Invariant)
    (current : system.Current pid earlier last)
    (phase : system.phase = .handshake .reading pid fd fd2) (own : last.fd2 = fd2)
    (step : ChildStep system.contents last contents last') (alive : last'.phase ≠ .terminated) :
    ∃ next, SystemStep shellPgid system next ∧ next.Clean ∧ system.Talks next := by
  refine ⟨_, .child current.children step, ?_, ?_⟩
  · have apart := invariant.apart
    rw [current.children, List.pairwise_append] at apart
    have pipes := (invariant.coherent last current.mem).pipes
    unfold System.Clean
    rw [phase]
    intro child member same ended
    cases List.mem_append.mp member with
    | inl before =>
        have below := apart.2.2 child before last (.head _)
        omega
    | inr here =>
        rw [List.mem_singleton.mp here] at ended
        exact absurd ended alive
  · have same : (last'.pid, last'.call) = (last.pid, last.call) := by cases step <;> rfl
    refine ⟨fun stage _ _ _ phase => ⟨stage, phase⟩, rfl, rfl, rfl, rfl, ?_⟩
    simp only [System.forks, current.children, List.map_append, List.map_cons, List.map_nil, same]

/-- A parent that reads has its answer, or the child can go on. -/
theorem System.Reachable.answers (reached : system.Reachable shellPgid command)
    (clean : system.Clean) (phase : system.phase = .handshake .reading pid fd fd2) :
    ∃ next, SystemStep shellPgid system next ∧ next.Clean ∧ system.Talks next := by
  have invariant := reached.invariant
  have progress := invariant.progress
  unfold System.Clean at clean
  rw [phase] at clean progress
  obtain ⟨earlier, last, current, rfl, rfl, _, sent⟩ := progress
  cases answer : system.contents last.fd2 with
  | cons value rest =>
      exact ⟨_, .parent (.read phase answer), trivial, System.talks_stage phase _ _⟩
  | nil =>
      have awaits := reached.onTrack.awaits _ _ _ _ phase last current.mem rfl
      have untold : last.phase.hasTold = false := by
        cases told : last.phase.hasTold with
        | false => rfl
        | true =>
            cases awaits told with
            | inl ended => exact absurd answer (clean last current.mem rfl ended)
            | inr answered => exact absurd answer answered
      cases at' : last.phase with
      | forked => exact current.talks invariant phase rfl (.close at') fun ended => by cases ended
      | closing =>
          exact current.talks invariant phase rfl (.closeOther at') fun ended => by cases ended
      | reading =>
          obtain ⟨pgid, rest, received⟩ := List.exists_cons_of_ne_nil (sent (by rw [at']; rfl))
          exact current.talks invariant phase rfl (.read at' received) fun ended => by cases ended
      | received pgid =>
          exact current.talks invariant phase rfl (.closeRead at') fun ended => by cases ended
      | joining pgid =>
          exact current.talks invariant phase rfl (.setpgid at') fun ended => by cases ended
      | joined pgid =>
          exact current.talks invariant phase rfl (.write at') fun ended => by cases ended
      | _ =>
          rw [at'] at untold
          cases untold

/-- A handshake in which no call has failed goes on until the child has answered. -/
theorem System.Reachable.talks {stage : Stage} (reached : system.Reachable shellPgid command)
    (clean : system.Clean) (phase : system.phase = .handshake stage pid fd fd2)
    (unanswered : stage ≠ .answered) :
    ∃ next, SystemStep shellPgid system next ∧ next.Clean ∧ system.Talks next := by
  have invariant := reached.invariant
  have progress := invariant.progress
  have going := clean
  unfold System.Clean at clean
  rw [phase] at clean progress
  cases stage with
  | closingRead =>
      exact ⟨_, .parent (.closeRead phase), clean, System.talks_stage phase _ system.contents⟩
  | closingWrite =>
      exact ⟨_, .parent (.closeWrite phase), clean, System.talks_stage phase _ system.contents⟩
  | writing =>
      obtain ⟨earlier, last, current, rfl, rfl, _⟩ := progress
      obtain ⟨_, silent, waiting⟩ :=
        reached.onTrack.awaits _ _ _ _ phase last current.mem rfl
      have pipes := (invariant.coherent last current.mem).pipes
      have readable : system.Readable last.fd := by
        cases waiting with
        | inl ended => exact absurd silent (clean last current.mem rfl ended)
        | inr expecting => exact .inr ⟨last, current.mem, expecting.2⟩
      refine ⟨_, .parent (.write phase readable), fun child member same ended => ?_,
        System.talks_stage phase system.ends _⟩
      change Function.update system.contents last.fd _ last.fd2 ≠ []
      rw [Function.update_of_ne (Nat.ne_of_gt pipes)]
      exact clean child member same ended
  | written =>
      exact ⟨_, .parent (.closeWritten phase), clean, System.talks_stage phase _ system.contents⟩
  | reading => exact reached.answers going phase
  | answered => exact absurd rfl unanswered

/-- As long as no call has failed, a party can go on, unless the parent has returned. -/
theorem System.Reachable.goes_on (nonempty : command.commandCalls ≠ [])
    (reached : system.Reachable shellPgid command) (clean : system.Clean) :
    (∃ info, system.phase = .returned (some info)) ∨
      ∃ next, SystemStep shellPgid system next ∧ next.Clean := by
  have invariant := reached.invariant
  have onTrack := reached.onTrack
  have progress := invariant.progress
  cases phase : system.phase with
  | calling =>
      right
      cases calls : system.calls with
      | nil =>
          have begun : system.index ≠ 0 := fun none => nonempty (onTrack.first none ▸ calls)
          obtain ⟨info, present⟩ := Option.ne_none_iff_exists'.mp (invariant.info begun)
          refine ⟨_, .parent (.finish phase calls), ?_⟩
          unfold System.Clean
          rw [present]
          trivial
      | cons call rest =>
          cases own : isInternalCommand call with
          | true => exact ⟨_, .parent (.internal 0 phase calls own), trivial⟩
          | false => exact ⟨_, .parent (.pipe phase calls own), trivial⟩
  | piped fd => exact .inr ⟨_, .parent (.pipeAgain phase), trivial⟩
  | forking fd fd2 =>
      obtain ⟨call, rest, calls, _⟩ := onTrack.current (by rw [phase]; rfl)
      rw [phase] at progress
      obtain ⟨idle, next, _⟩ := progress
      refine .inr ⟨_, .parent (.fork phase calls Int.one_pos), fun child member same ended => ?_⟩
      cases List.mem_append.mp member with
      | inl earlier =>
          have below := idle.free child earlier
          omega
      | inr here =>
          rw [List.mem_singleton.mp here] at ended
          cases ended
  | handshake stage pid fd fd2 =>
      right
      by_cases answered : stage = .answered
      · subst answered
        exact ⟨_, .parent (.closeAnswered phase), trivial⟩
      · obtain ⟨next, step, going, _⟩ := reached.talks clean phase answered
        exact ⟨next, step, going⟩
  | returned info =>
      cases info with
      | some info => exact .inl ⟨info, rfl⟩
      | none =>
          unfold System.Clean at clean
          rw [phase] at clean
          exact clean.elim
  | killing _ | failed | dead =>
      unfold System.Clean at clean
      rw [phase] at clean
      exact clean.elim

/-- A child that has told its parent goes on to its program. -/
theorem ChildProcess.Settled.starts {pgid : Int} {child : ChildProcess}
    (settled : child.Settled pgid) (contents : Nat → List Int) :
    child.Started ∨ ∃ child', ChildStep contents child contents child' := by
  have told := settled.phase
  cases phase : child.phase with
  | told => exact .inr ⟨_, .closeWrite phase⟩
  | placing => exact .inr ⟨_, .tcsetpgrp phase⟩
  | starting => exact .inr ⟨_, .execvp phase⟩
  | running => exact .inl (.inl phase)
  | terminated => exact .inl (.inr phase)
  | _ =>
      rw [phase] at told
      cases told

/-- Once the parent has returned, every child has come to its program, or can go on. -/
theorem System.Reachable.starts {info : InternalExitInfo}
    (reached : system.Reachable shellPgid command) (phase : system.phase = .returned (some info)) :
    (∀ child ∈ system.children, child.Started) ∨
      ∃ next, SystemStep shellPgid system next ∧ next.Clean := by
  have progress := reached.invariant.progress
  rw [phase] at progress
  refine or_iff_not_imp_left.mpr fun unfinished => ?_
  rw [not_forall₂] at unfinished
  obtain ⟨child, member, unstarted⟩ := unfinished
  obtain ⟨child', step⟩ :=
    ((progress child member).starts system.contents).resolve_left unstarted
  obtain ⟨earlier, later, split⟩ := List.append_of_mem member
  refine ⟨_, .child split step, ?_⟩
  unfold System.Clean
  rw [phase]
  trivial

end Progress

/-- In every interleaving the parties take no more than 21 steps for each call and one. As
long as no call fails, somebody can go on until the parent has returned and every child has
come to its program. When the parent returns its result, each call that is no built-in has a
child, in the process group of the first one. -/
theorem handshake_completes {shellPgid : Int} {command : Command}
    (nonempty : command.commandCalls ≠ []) :
    (∀ count system, RunOf (SystemStep shellPgid) count (System.start command) system →
      count ≤ 21 * command.commandCalls.length + 1) ∧
      ∀ system, system.Reachable shellPgid command → system.Clean →
        ((∃ info, system.phase = .returned (some info) ∧
            ∀ child ∈ system.children, child.Started) ∨
          ∃ next, SystemStep shellPgid system next ∧ next.Clean) ∧
        ∀ info, system.phase = .returned (some info) →
          system.children.map (·.call) = externalCalls command.commandCalls ∧
          ∀ child ∈ system.children, child.group = (system.children.map (·.pid)).headD 0 := by
  constructor
  · intro count system run
    have bounded := run.bounded (systemStep_lowers shellPgid)
    have whole : (System.start command).remaining = 21 * command.commandCalls.length + 1 := by
      simp [System.remaining, System.start]
    omega
  · intro system reached clean
    constructor
    · cases reached.goes_on nonempty clean with
      | inl returned =>
          obtain ⟨info, phase⟩ := returned
          exact (reached.starts phase).imp_left fun started => ⟨info, phase, started⟩
      | inr next => exact .inr next
    · intro info phase
      have invariant := reached.invariant
      have launched := reached.onTrack.launched (by rw [phase]; rfl)
      have finished := reached.onTrack.finished info phase
      have progress := invariant.progress
      rw [phase] at progress
      refine ⟨?_, fun child member => ?_⟩
      · rw [← launched, System.owed, phase, finished]
        simp [externalCalls]
      · rw [← invariant.leader]
        exact (progress child member).group

/-- There is an interleaving in which both calls of a pipeline come to their programs. -/
theorem pipeline_handshakes_complete :
    let command : Command :=
      { commandString := "sleep | cat".toList
        commandCalls := [newCommandCall ["cat".toList] "cat".toList,
          newCommandCall ["sleep".toList] "sleep".toList]
        background := false
        openPipes := [(3, 4)] }
    ∃ (system : System) (info : InternalExitInfo), system.Reachable 1 command ∧
      system.phase = .returned (some info) ∧
      system.children.map (·.call) = command.commandCalls ∧
      ∀ child ∈ system.children, child.Started := by
  intro command
  have lowers : Lowers (fun start finish => SystemStep 1 start finish ∧ finish.Clean)
      System.remaining := fun start finish step => systemStep_lowers 1 start finish step.1
  obtain ⟨system, run, ended⟩ := exists_end lowers (System.start command)
  have reached : system.Reachable 1 command :=
    Relation.ReflTransGen.mono (fun _ _ step => step.1) _ _ run
  have clean : system.Clean := by
    cases run with
    | refl => trivial
    | tail _ step => exact step.2
  obtain ⟨goes, completed⟩ := (handshake_completes (List.cons_ne_nil _ _)).2 system reached clean
  rcases goes with ⟨info, phase, started⟩ | ⟨next, step⟩
  · exact ⟨system, info, reached, phase, (completed info phase).1, started⟩
  · exact absurd step (ended next)

end Jsh
