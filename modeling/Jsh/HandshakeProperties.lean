import Mathlib.Data.List.Pairwise
import Jsh.Handshake

/-!
# What the handshake guarantees

An invariant of the shell and its children, in every interleaving of their steps.
-/

set_option autoImplicit false

namespace Jsh

/-! ## What a child knows -/

/-- The process group the child has read. -/
def ChildPhase.pgid? : ChildPhase → Option Int
  | .received pgid | .joining pgid | .joined pgid => some pgid
  | _ => none

/-- The child has not read yet. -/
def ChildPhase.expects : ChildPhase → Bool
  | .forked | .closing | .reading => true
  | _ => false

/-- The child has joined its process group. -/
def ChildPhase.hasJoined : ChildPhase → Bool
  | .joined _ | .told | .placing | .starting | .running => true
  | _ => false

/-- The child has told its parent, if it has not ended. -/
def ChildPhase.hasTold : ChildPhase → Bool
  | .told | .placing | .starting | .running | .terminated => true
  | _ => false

/-- The child is in the process group, and its parent knows. -/
structure ChildProcess.Settled (pgid : Int) (child : ChildProcess) : Prop where
  group : child.group = pgid
  phase : child.phase.hasTold = true

/-- The child has ended or has been sent `SIGKILL`. -/
def ChildProcess.Doomed (child : ChildProcess) : Prop :=
  child.phase = .terminated ∨ child.killed = true

/-- What the pipes of a child and its phase say about the process group. -/
structure ChildProcess.Coherent (contents : Nat → List Int) (pgid : Int) (child : ChildProcess) :
    Prop where
  positive : 0 < child.pid
  pipes : child.fd < child.fd2
  sent : ∀ value ∈ contents child.fd, value = pgid
  received : ∀ value, child.phase.pgid? = some value → value = pgid
  joined : child.phase.hasJoined = true → child.group = pgid
  told : contents child.fd2 ≠ [] → child.Settled pgid
  ends : ∀ pipe ∈ child.ends.writes, pipe ≤ child.fd2
  released : child.phase = .terminated → child.ends = .none

/-- What a step of a child leaves as it is, and what it may change. -/
structure ChildMoved (contents contents' : Nat → List Int) (child child' : ChildProcess) : Prop where
  pid : child'.pid = child.pid
  fd : child'.fd = child.fd
  fd2 : child'.fd2 = child.fd2
  others : ∀ pipe, pipe ≠ child.fd → pipe ≠ child.fd2 → contents' pipe = contents pipe
  alive : child.phase ≠ .terminated
  killed : child'.killed = child.killed
  expects : child'.phase.expects = true →
    child.phase.expects = true ∧ contents' child.fd = contents child.fd
  settled : ∀ pgid, child.Settled pgid → child'.Settled pgid

theorem ChildStep.moved {contents contents' : Nat → List Int} {child child' : ChildProcess}
    (step : ChildStep contents child contents' child') :
    ChildMoved contents contents' child child' := by
  have early : ∀ {pgid : Int}, child.phase.hasTold = false → child.Settled pgid → False := by
    intro pgid phase settled
    rw [settled.phase] at phase
    cases phase
  cases step with
  | close phase | closeOther phase | closeRead phase | setpgid phase =>
      constructor
      case settled =>
        intro pgid settled
        exact (early (by rw [phase]; rfl) settled).elim
      all_goals simp [phase, ChildPhase.expects]
  | read phase holds =>
      constructor
      case settled =>
        intro pgid settled
        exact (early (by rw [phase]; rfl) settled).elim
      case others =>
        intro pipe apart _
        exact Function.update_of_ne apart _ _
      all_goals simp [phase, ChildPhase.expects]
  | write phase =>
      constructor
      case settled =>
        intro pgid settled
        exact (early (by rw [phase]; rfl) settled).elim
      case others =>
        intro pipe _ apart
        exact Function.update_of_ne apart _ _
      all_goals simp [phase, ChildPhase.expects]
  | closeWrite phase | tcsetpgrp phase | execvp phase =>
      constructor
      case settled =>
        intro pgid settled
        exact ⟨settled.group, rfl⟩
      all_goals simp [phase, ChildPhase.expects]
  | exit alive =>
      constructor
      case settled =>
        intro pgid settled
        exact ⟨settled.group, rfl⟩
      all_goals simp [ChildProcess.exit, alive, ChildPhase.expects]

theorem ChildProcess.Coherent.silent {contents : Nat → List Int} {pgid : Int}
    {child : ChildProcess} (coherent : child.Coherent contents pgid)
    (early : child.phase.hasTold = false) : contents child.fd2 = [] := by
  by_contra told
  rw [(coherent.told told).phase] at early
  cases early

theorem ChildProcess.Coherent.step {contents contents' : Nat → List Int} {pgid : Int}
    {child child' : ChildProcess} (coherent : child.Coherent contents pgid)
    (step : ChildStep contents child contents' child') : child'.Coherent contents' pgid := by
  have apart : child.fd2 ≠ child.fd := (Nat.ne_of_lt coherent.pipes).symm
  cases step with
  | close phase | closeOther phase =>
      have silent := coherent.silent (by rw [phase]; rfl)
      constructor
      case ends =>
        intro pipe holds
        apply coherent.ends pipe
        first | exact holds | exact Finset.mem_of_mem_erase holds
      case told => exact fun told => absurd silent told
      case sent => exact coherent.sent
      all_goals simp [coherent.positive, coherent.pipes, ChildPhase.pgid?, ChildPhase.hasJoined]
  | @read value rest phase holds =>
      have silent := coherent.silent (by rw [phase]; rfl)
      have known : value = pgid := coherent.sent value (by rw [holds]; exact .head _)
      constructor
      case sent =>
        intro other member
        rw [Function.update_self] at member
        exact coherent.sent other (by rw [holds]; exact .tail _ member)
      case received =>
        intro other same
        cases same
        exact known
      case told =>
        intro told
        rw [Function.update_of_ne apart] at told
        exact absurd silent told
      case ends => exact coherent.ends
      all_goals simp [coherent.positive, coherent.pipes, ChildPhase.hasJoined]
  | closeRead phase =>
      have silent := coherent.silent (by rw [phase]; rfl)
      constructor
      case received =>
        intro other same
        exact coherent.received other (by rw [phase]; exact same)
      case told => exact fun told => absurd silent told
      case sent => exact coherent.sent
      case ends => exact coherent.ends
      all_goals simp [coherent.positive, coherent.pipes, ChildPhase.hasJoined]
  | setpgid phase =>
      have silent := coherent.silent (by rw [phase]; rfl)
      have known := coherent.received _ (by rw [phase]; rfl)
      constructor
      case received =>
        intro other same
        cases same
        exact known
      case joined => exact fun _ => known
      case told => exact fun told => absurd silent told
      case sent => exact coherent.sent
      case ends => exact coherent.ends
      all_goals simp [coherent.positive, coherent.pipes]
  | write phase =>
      have group := coherent.joined (by rw [phase]; rfl)
      constructor
      case sent =>
        intro other member
        rw [Function.update_of_ne apart.symm] at member
        exact coherent.sent other member
      case joined => exact fun _ => group
      case told => exact fun _ => ⟨group, rfl⟩
      case ends => exact coherent.ends
      all_goals simp [coherent.positive, coherent.pipes, ChildPhase.pgid?]
  | closeWrite phase | tcsetpgrp phase | execvp phase =>
      have group := coherent.joined (by rw [phase]; rfl)
      constructor
      case ends =>
        intro pipe holds
        apply coherent.ends pipe
        first | exact holds | exact Finset.mem_of_mem_erase holds
      case joined => exact fun _ => group
      case told => exact fun _ => ⟨group, rfl⟩
      case sent => exact coherent.sent
      all_goals simp [coherent.positive, coherent.pipes, ChildPhase.pgid?]
  | exit alive =>
      constructor
      case told => exact fun told => ⟨(coherent.told told).group, rfl⟩
      case sent => exact coherent.sent
      all_goals simp [ChildProcess.exit, PipeEnds.none, coherent.positive, coherent.pipes,
        ChildPhase.pgid?, ChildPhase.hasJoined]

theorem ChildProcess.Coherent.others {contents contents' : Nat → List Int} {pgid : Int}
    {child : ChildProcess} (coherent : child.Coherent contents pgid)
    (fd : contents' child.fd = contents child.fd) (fd2 : contents' child.fd2 = contents child.fd2) :
    child.Coherent contents' pgid where
  positive := coherent.positive
  pipes := coherent.pipes
  sent := by
    rw [fd]
    exact coherent.sent
  received := coherent.received
  joined := coherent.joined
  told := by
    rw [fd2]
    exact coherent.told
  ends := coherent.ends
  released := coherent.released

/-! ## The invariant -/

/-- Every child has been settled, and the pipes from `free` on belong to none. -/
structure System.Idle (system : System) (free : Nat) : Prop where
  settled : ∀ child ∈ system.children, child.Settled system.job.pgid
  first : system.index = 0 → system.children = []
  free : ∀ child ∈ system.children, child.fd2 < free

/-- What holds in a stage of the handshake with a child. -/
def System.InStage (system : System) (child : ChildProcess) : Stage → Prop
  | .closingRead | .closingWrite => True
  | .writing => child.fd2 ∉ system.ends.writes
  | .written | .reading =>
      child.fd2 ∉ system.ends.writes ∧
        (child.phase.expects = true → system.contents child.fd ≠ [])
  | .answered => child.Settled system.job.pgid

/-- The last child is the one the parent is concerned with. -/
structure System.Current (system : System) (pid : Int) (earlier : List ChildProcess)
    (child : ChildProcess) : Prop where
  children : system.children = earlier ++ [child]
  settled : ∀ other ∈ earlier, other.Settled system.job.pgid
  pid : child.pid = pid

/-- What a phase of the parent says about the children. -/
def System.Progress (system : System) : ParentPhase → Prop
  | .calling => system.Idle system.made
  | .piped fd => system.Idle fd ∧ fd + 1 = system.made
  | .forking fd fd2 => system.Idle fd ∧ fd + 1 = fd2 ∧ fd2 + 1 = system.made
  | .handshake stage pid fd fd2 => ∃ earlier child, system.Current pid earlier child ∧
      child.fd = fd ∧ child.fd2 = fd2 ∧ system.InStage child stage
  | .killing pid => ∃ earlier child, system.Current pid earlier child
  | .failed => ∀ child ∈ system.children, child.Settled system.job.pgid ∨ child.Doomed
  | .returned none => ∀ child ∈ system.children, child.Doomed
  | .returned (some _) => ∀ child ∈ system.children, child.Settled system.job.pgid
  | .dead => True

structure System.Invariant (system : System) : Prop where
  coherent : ∀ child ∈ system.children, child.Coherent system.contents system.job.pgid
  apart : system.children.Pairwise fun earlier later => earlier.fd2 < later.fd
  made : ∀ child ∈ system.children, child.fd2 < system.made
  ends : ∀ pipe ∈ system.ends.writes, pipe < system.made
  unused : ∀ pipe, (∀ child ∈ system.children, pipe ≠ child.fd ∧ pipe ≠ child.fd2) →
    system.contents pipe = []
  leader : system.job.pgid = (system.children.map (·.pid)).headD 0
  info : system.index ≠ 0 → system.info ≠ none
  progress : system.Progress system.phase

theorem System.invariant_start (command : Command) : (System.start command).Invariant where
  coherent := by simp [System.start]
  apart := .nil
  made := by simp [System.start]
  ends := by simp [System.start, PipeEnds.none]
  unused _ _ := rfl
  leader := rfl
  info := by simp [System.start]
  progress := ⟨by simp [System.start], fun _ => rfl, by simp [System.start]⟩

/-! ## Steps of a child -/

section ChildStep

variable {earlier later : List ChildProcess} {child child' : ChildProcess}

theorem forall_replaced {property : ChildProcess → Prop}
    (all : ∀ other ∈ earlier ++ child :: later, property other)
    (stable : property child → property child') :
    ∀ other ∈ earlier ++ child' :: later, property other := by
  intro other member
  rcases List.mem_append.mp member with before | after
  · exact all other (List.mem_append_left _ before)
  · cases after with
    | head => exact stable (all child (List.mem_append_right _ (.head _)))
    | tail _ after => exact all other (List.mem_append_right _ (.tail _ after))

variable {contents contents' : Nat → List Int}

theorem ChildMoved.doomed (moved : ChildMoved contents contents' child child')
    (doomed : child.Doomed) : child'.Doomed :=
  .inr (moved.killed.trans (doomed.resolve_left moved.alive))

/-- The system after a step of a child. -/
def System.after (system : System) (contents : Nat → List Int) (children : List ChildProcess) :
    System := { system with contents, children }

/-- The child that the parent is concerned with, after a step of a child. -/
theorem System.Current.replaced {system : System} {pid : Int} {before : List ChildProcess}
    {last : ChildProcess} (current : system.Current pid before last)
    (split : system.children = earlier ++ child :: later)
    (moved : ChildMoved contents contents' child child') :
    ∃ before' last', (system.after contents' (earlier ++ child' :: later)).Current pid before' last' ∧
      (last = child ∧ last' = child' ∨ last ∈ later ∧ last' = last) := by
  have children := current.children
  rw [split] at children
  rcases List.eq_nil_or_concat later with rfl | ⟨middle, other, rfl⟩
  · obtain ⟨rfl, rfl⟩ := List.append_singleton_inj.mp children
    exact ⟨earlier, child', ⟨rfl, current.settled, moved.pid.trans current.pid⟩, .inl ⟨rfl, rfl⟩⟩
  · rw [List.concat_eq_append] at children ⊢
    have shape : (earlier ++ child :: middle) ++ [other] = before ++ [last] := by
      rw [← children]
      simp
    obtain ⟨rfl, rfl⟩ := List.append_singleton_inj.mp shape
    refine ⟨earlier ++ child' :: middle, other, ⟨?_, ?_, current.pid⟩, .inr ⟨by simp, rfl⟩⟩
    · simp [System.after]
    · exact forall_replaced current.settled (moved.settled _)

theorem System.Idle.replaced {system : System} {free : Nat} (idle : system.Idle free)
    (split : system.children = earlier ++ child :: later)
    (moved : ChildMoved contents contents' child child') :
    (system.after contents' (earlier ++ child' :: later)).Idle free where
  settled := forall_replaced (split ▸ idle.settled) (moved.settled _)
  first := by
    intro index
    have none := idle.first index
    rw [split] at none
    simp at none
  free := forall_replaced (split ▸ idle.free) fun before => moved.fd2 ▸ before

theorem System.Progress.replaced {system : System} {phase : ParentPhase}
    (progress : system.Progress phase) (split : system.children = earlier ++ child :: later)
    (moved : ChildMoved system.contents contents' child child')
    (kept : ∀ other ∈ later, contents' other.fd = system.contents other.fd) :
    (system.after contents' (earlier ++ child' :: later)).Progress phase := by
  cases phase with
  | calling => exact System.Idle.replaced progress split moved
  | piped fd => exact ⟨progress.1.replaced split moved, progress.2⟩
  | forking fd fd2 => exact ⟨progress.1.replaced split moved, progress.2⟩
  | handshake stage pid fd fd2 =>
      obtain ⟨before, last, current, hfd, hfd2, inStage⟩ := progress
      obtain ⟨before', last', current', ⟨rfl, rfl⟩ | ⟨member, rfl⟩⟩ := current.replaced split moved
      · refine ⟨before', last', current', moved.fd.trans hfd, moved.fd2.trans hfd2, ?_⟩
        cases stage with
        | closingRead | closingWrite => trivial
        | writing =>
            change last'.fd2 ∉ _
            rw [moved.fd2]
            exact inStage
        | written | reading =>
            constructor
            · rw [moved.fd2]
              exact inStage.1
            · intro expects
              obtain ⟨expected, same⟩ := moved.expects expects
              change contents' last'.fd ≠ []
              rw [moved.fd, same]
              exact inStage.2 expected
        | answered => exact moved.settled _ inStage
      · refine ⟨before', last', current', hfd, hfd2, ?_⟩
        cases stage with
        | written | reading =>
            refine ⟨inStage.1, fun expects => ?_⟩
            change contents' last'.fd ≠ []
            rw [kept last' member]
            exact inStage.2 expects
        | closingRead | closingWrite | writing | answered => exact inStage
  | killing pid =>
      obtain ⟨before, last, current⟩ := progress
      obtain ⟨before', last', current', _⟩ := current.replaced split moved
      exact ⟨before', last', current'⟩
  | failed =>
      exact forall_replaced (split ▸ progress) (Or.imp (moved.settled _) moved.doomed)
  | returned info =>
      cases info with
      | none => exact forall_replaced (split ▸ progress) moved.doomed
      | some _ => exact forall_replaced (split ▸ progress) (moved.settled _)
  | dead => trivial

theorem System.Invariant.childStep {system : System} (invariant : system.Invariant)
    (split : system.children = earlier ++ child :: later)
    (step : ChildStep system.contents child contents' child') :
    (system.after contents' (earlier ++ child' :: later)).Invariant := by
  have moved := step.moved
  have apart := invariant.apart
  have coherent := invariant.coherent
  rw [split] at apart coherent
  obtain ⟨_, pairs, cross⟩ := List.pairwise_append.mp apart
  obtain ⟨after, _⟩ := List.pairwise_cons.mp pairs
  have here := coherent child (by simp)
  have before : ∀ other ∈ earlier, other.fd2 < child.fd :=
    fun other member => cross other member child (.head _)
  have kept : ∀ other ∈ later, contents' other.fd = system.contents other.fd := by
    intro other member
    have behind := after other member
    have pipes := here.pipes
    exact moved.others _ (by omega) (by omega)
  constructor
  case coherent =>
    intro other member
    rcases List.mem_append.mp member with past | next
    · have ahead := before other past
      have pipes := here.pipes
      have pipes' := (coherent other (List.mem_append_left _ past)).pipes
      apply (coherent other (List.mem_append_left _ past)).others
      · exact moved.others _ (by omega) (by omega)
      · exact moved.others _ (by omega) (by omega)
    · cases next with
      | head => exact here.step step
      | tail _ next =>
          have behind := after other next
          have pipes := here.pipes
          have coherent' := coherent other (List.mem_append_right _ (.tail _ next))
          have pipes' := coherent'.pipes
          apply coherent'.others (kept other next)
          exact moved.others _ (by omega) (by omega)
  case apart =>
    have shape : List.Pairwise (fun earlier later => earlier.fd2 < later.fd)
        (earlier ++ child' :: later) := by
      simp only [List.pairwise_append, List.pairwise_cons, List.mem_cons, forall_eq_or_imp] at apart ⊢
      rw [moved.fd2, moved.fd]
      exact apart
    exact shape
  case made => exact forall_replaced (split ▸ invariant.made) fun bound => moved.fd2 ▸ bound
  case ends => exact invariant.ends
  case unused =>
    intro pipe free
    have free' : ∀ other ∈ system.children, pipe ≠ other.fd ∧ pipe ≠ other.fd2 := by
      rw [split]
      apply forall_replaced free
      rw [moved.fd, moved.fd2]
      exact id
    have apart := free' child (by simp [split])
    exact (moved.others pipe apart.1 apart.2).trans (invariant.unused pipe free')
  case leader =>
    have leader := invariant.leader
    rw [split] at leader
    simpa [System.after, moved.pid] using leader
  case info => exact invariant.info
  case progress => exact invariant.progress.replaced split moved kept

end ChildStep

/-! ## Steps of the parent -/

section ParentStep

variable {system : System}

theorem System.Invariant.move (invariant : system.Invariant) {phase : ParentPhase} {ends : PipeEnds}
    (bound : ∀ pipe ∈ ends.writes, pipe < system.made)
    (progress : ({ system with phase, ends } : System).Progress phase) :
    ({ system with phase, ends } : System).Invariant :=
  { invariant with ends := bound, progress }

theorem System.continued_pgid (launched : InternalExitInfo) :
    (system.continued launched).job.pgid = system.job.pgid := by
  unfold System.continued
  dsimp only
  split <;> rfl

theorem System.Invariant.continued (invariant : system.Invariant) (launched : InternalExitInfo)
    (settled : ∀ child ∈ system.children, child.Settled system.job.pgid) :
    (system.continued launched).Invariant := by
  have pgid := system.continued_pgid launched
  constructor
  case coherent =>
    rw [pgid]
    exact invariant.coherent
  case leader =>
    rw [pgid]
    exact invariant.leader
  case info =>
    intro _
    change (if system.index = 0 then some launched else system.info) ≠ none
    split
    · exact Option.some_ne_none launched
    · next later => exact invariant.info later
  case progress =>
    refine ⟨?_, fun first => absurd first (Nat.succ_ne_zero _), invariant.made⟩
    rw [pgid]
    exact settled
  case apart => exact invariant.apart
  case made => exact invariant.made
  case ends => exact invariant.ends
  case unused => exact invariant.unused

theorem System.Invariant.piping (invariant : system.Invariant) {phase : ParentPhase}
    (progress : (system.piping phase).Progress phase) : (system.piping phase).Invariant where
  coherent := invariant.coherent
  apart := invariant.apart
  made child member := Nat.lt_succ_of_lt (invariant.made child member)
  ends := by
    intro pipe holds
    rcases Finset.mem_insert.mp holds with rfl | old
    · exact Nat.lt_succ_self _
    · exact Nat.lt_succ_of_lt (invariant.ends pipe old)
  unused := invariant.unused
  leader := invariant.leader
  info := invariant.info
  progress

/-- There is a process group once a child has been forked. -/
theorem System.Invariant.pgid_ne_zero (invariant : system.Invariant)
    (some : system.children ≠ []) : system.job.pgid ≠ 0 := by
  have leader := invariant.leader
  cases shape : system.children with
  | nil => exact absurd shape some
  | cons first rest =>
      have positive := (invariant.coherent first (by simp [shape])).positive
      rw [shape, List.map_cons, List.headD_cons] at leader
      omega

theorem System.Invariant.forked (invariant : system.Invariant) (shellPgid : Int) (call : CommandCall)
    {pid : Int} {fd fd2 : Nat} (positive : 0 < pid) (idle : system.Idle fd) (next : fd + 1 = fd2)
    (last : fd2 + 1 = system.made) : (system.forked shellPgid call pid fd fd2).Invariant := by
  have group : ∀ child ∈ system.children,
      (system.forked shellPgid call pid fd fd2).job.pgid = system.job.pgid := by
    intro child member
    change (if system.job.pgid = 0 then _ else system.job).pgid = _
    rw [if_neg (invariant.pgid_ne_zero (List.ne_nil_of_mem member))]
  have empty : ∀ pipe, fd ≤ pipe → system.contents pipe = [] := by
    intro pipe above
    apply invariant.unused
    intro child member
    have below := idle.free child member
    have pipes := (invariant.coherent child member).pipes
    omega
  constructor
  case coherent =>
    intro child member
    rcases List.mem_append.mp member with old | new
    · rw [group child old]
      exact invariant.coherent child old
    · cases List.mem_singleton.mp new
      constructor
      case sent =>
        intro value sent
        rw [show (system.forked shellPgid call pid fd fd2).contents = system.contents from rfl,
          empty fd (Nat.le_refl fd)] at sent
        cases sent
      case told => exact fun told => absurd (empty fd2 (by omega)) told
      case ends =>
        intro pipe holds
        have bound := invariant.ends pipe holds
        change pipe ≤ fd2
        omega
      case positive => exact positive
      case pipes => exact Nat.lt_of_succ_le (Nat.le_of_eq next)
      all_goals simp [ChildPhase.pgid?, ChildPhase.hasJoined]
  case apart =>
    apply List.pairwise_append.mpr ⟨invariant.apart, List.pairwise_singleton _ _, ?_⟩
    intro child old other new
    cases List.mem_singleton.mp new
    exact idle.free child old
  case made =>
    intro child member
    rcases List.mem_append.mp member with old | new
    · exact invariant.made child old
    · cases List.mem_singleton.mp new
      change fd2 < system.made
      omega
  case unused =>
    intro pipe free
    exact invariant.unused pipe fun child member => free child (List.mem_append_left _ member)
  case leader =>
    have leader := invariant.leader
    cases shape : system.children with
    | nil =>
        rw [shape] at leader
        simp [System.forked, shape, show system.job.pgid = 0 from leader]
    | cons first rest =>
        rw [group first (by simp [shape]), leader]
        simp [System.forked, shape]
  case progress =>
    refine ⟨system.children, _, ⟨rfl, fun child member => ?_, rfl⟩, rfl, rfl, trivial⟩
    rw [group child member]
    exact idle.settled child member
  case ends => exact invariant.ends
  case info => exact invariant.info

theorem System.Current.mem {pid : Int} {earlier : List ChildProcess} {child : ChildProcess}
    (current : system.Current pid earlier child) : child ∈ system.children := by
  rw [current.children]
  exact List.mem_append_right _ (.head _)

/-- The pipes of the last child belong to no other one. -/
theorem System.Invariant.behind (invariant : system.Invariant) {pid : Int}
    {earlier : List ChildProcess} {child : ChildProcess}
    (current : system.Current pid earlier child) :
    ∀ other ∈ system.children, other = child ∨ other.fd < other.fd2 ∧ other.fd2 < child.fd := by
  intro other member
  have apart := invariant.apart
  have pipes := (invariant.coherent other member).pipes
  rw [current.children] at apart member
  obtain ⟨_, _, cross⟩ := List.pairwise_append.mp apart
  rcases List.mem_append.mp member with past | last
  · exact .inr ⟨pipes, cross other past child (.head _)⟩
  · exact .inl (List.mem_singleton.mp last)

/-- The contents of a pipe of the last child change. -/
theorem System.Invariant.exchanged (invariant : system.Invariant) {pid : Int}
    {earlier : List ChildProcess} {child : ChildProcess}
    (current : system.Current pid earlier child) {pipe : Nat} {values : List Int}
    {phase : ParentPhase} (own : pipe = child.fd ∨ pipe = child.fd2)
    (coherent : child.Coherent (Function.update system.contents pipe values) system.job.pgid)
    (progress : ({ system with phase, contents := Function.update system.contents pipe values } :
      System).Progress phase) :
    ({ system with phase, contents := Function.update system.contents pipe values } :
      System).Invariant := by
  have pipes := (invariant.coherent child current.mem).pipes
  refine { invariant with coherent := ?_, unused := ?_, progress }
  · intro other member
    rcases invariant.behind current other member with rfl | ⟨pipes', below⟩
    · exact coherent
    · apply (invariant.coherent other member).others
      · exact Function.update_of_ne (by omega) _ _
      · exact Function.update_of_ne (by omega) _ _
  · intro other free
    have apart := free child current.mem
    change Function.update system.contents pipe values other = []
    rw [Function.update_of_ne (by omega)]
    exact invariant.unused other free

theorem System.Invariant.kill (invariant : system.Invariant) (target : ChildProcess → Bool)
    {phase : ParentPhase}
    (progress : ({ system.kill target with phase } : System).Progress phase) :
    ({ system.kill target with phase } : System).Invariant := by
  have same : ∀ child : ChildProcess,
      (if target child then { child with killed := true } else child : ChildProcess).pid = child.pid ∧
      (if target child then { child with killed := true } else child : ChildProcess).fd = child.fd ∧
      (if target child then { child with killed := true } else child : ChildProcess).fd2 = child.fd2 := by
    intro child
    split <;> exact ⟨rfl, rfl, rfl⟩
  constructor
  case coherent =>
    intro child member
    obtain ⟨before, old, rfl⟩ := List.mem_map.mp member
    have coherent := invariant.coherent before old
    split
    · exact ⟨coherent.positive, coherent.pipes, coherent.sent, coherent.received, coherent.joined,
        fun told => ⟨(coherent.told told).group, (coherent.told told).phase⟩, coherent.ends,
        coherent.released⟩
    · exact coherent
  case apart =>
    apply List.pairwise_map.mpr
    apply invariant.apart.imp
    intro earlier later apart
    rw [(same earlier).2.2, (same later).2.1]
    exact apart
  case made =>
    intro child member
    obtain ⟨before, old, rfl⟩ := List.mem_map.mp member
    rw [(same before).2.2]
    exact invariant.made before old
  case unused =>
    intro pipe free
    apply invariant.unused
    intro child member
    have apart := free _ (List.mem_map_of_mem member)
    rw [(same child).2.1, (same child).2.2] at apart
    exact apart
  case leader =>
    have pids : (system.kill target).children.map (·.pid) = system.children.map (·.pid) := by
      rw [System.kill, List.map_map]
      exact List.map_congr_left fun child _ => (same child).1
    change system.job.pgid = ((system.kill target).children.map (·.pid)).headD 0
    rw [pids]
    exact invariant.leader
  case ends => exact invariant.ends
  case info => exact invariant.info
  case progress => exact progress

theorem System.Current.all_settled {pid : Int} {earlier : List ChildProcess} {child : ChildProcess}
    (current : system.Current pid earlier child) (last : child.Settled system.job.pgid) :
    ∀ other ∈ system.children, other.Settled system.job.pgid := by
  intro other member
  rw [current.children] at member
  rcases List.mem_append.mp member with past | here
  · exact current.settled other past
  · cases List.mem_singleton.mp here
    exact last

theorem System.Invariant.parentStep {shellPgid : Int} {finish : System}
    (invariant : system.Invariant) (step : ParentStep shellPgid system finish) :
    finish.Invariant := by
  have progress := invariant.progress
  cases step with
  | finish phase _ =>
      rw [phase] at progress
      apply invariant.move invariant.ends
      cases info : system.info with
      | none =>
          have first : system.index = 0 := by
            by_contra later
            exact invariant.info later info
          intro child member
          rw [show system.children = [] from progress.first first] at member
          cases member
      | some info => exact progress.settled
  | internal exitCode phase _ _ =>
      rw [phase] at progress
      exact invariant.continued _ progress.settled
  | pipe phase _ _ =>
      rw [phase] at progress
      exact invariant.piping ⟨⟨progress.settled, progress.first, progress.free⟩, rfl⟩
  | pipeFails phase _ _ =>
      rw [phase] at progress
      apply invariant.move invariant.ends
      exact fun child member => .inl (progress.settled child member)
  | pipeAgain phase =>
      rw [phase] at progress
      obtain ⟨idle, next⟩ := progress
      exact invariant.piping ⟨⟨idle.settled, idle.first, idle.free⟩, next, rfl⟩
  | pipeAgainFails phase =>
      rw [phase] at progress
      apply invariant.move invariant.ends
      exact fun child member => .inl (progress.1.settled child member)
  | fork phase _ positive =>
      rw [phase] at progress
      obtain ⟨idle, next, last⟩ := progress
      exact invariant.forked shellPgid _ positive idle next last
  | forkFails phase =>
      rw [phase] at progress
      apply invariant.move invariant.ends
      exact fun child member => .inl (progress.1.settled child member)
  | closeRead phase =>
      rw [phase] at progress
      obtain ⟨earlier, child, current, hfd, hfd2, _⟩ := progress
      apply invariant.move
      · exact invariant.ends
      · exact ⟨earlier, child, ⟨current.children, current.settled, current.pid⟩, hfd, hfd2, trivial⟩
  | closeWrite phase =>
      rw [phase] at progress
      obtain ⟨earlier, child, current, hfd, hfd2, _⟩ := progress
      apply invariant.move
      · exact fun pipe holds => invariant.ends pipe (Finset.mem_of_mem_erase holds)
      · refine ⟨earlier, child, ⟨current.children, current.settled, current.pid⟩, hfd, hfd2, ?_⟩
        rw [← hfd2]
        exact Finset.notMem_erase _ _
  | write phase _ =>
      rw [phase] at progress
      obtain ⟨earlier, child, current, rfl, rfl, closed⟩ := progress
      have coherent := invariant.coherent child current.mem
      have apart : child.fd2 ≠ child.fd := (Nat.ne_of_lt coherent.pipes).symm
      apply invariant.exchanged current (.inl rfl)
      · constructor
        case sent =>
          intro value sent
          rw [Function.update_self] at sent
          rcases List.mem_append.mp sent with old | new
          · exact coherent.sent value old
          · exact List.mem_singleton.mp new
        case told =>
          rw [Function.update_of_ne apart]
          exact coherent.told
        case positive => exact coherent.positive
        case pipes => exact coherent.pipes
        case received => exact coherent.received
        case joined => exact coherent.joined
        case ends => exact coherent.ends
        case released => exact coherent.released
      · refine ⟨earlier, child, ⟨current.children, current.settled, current.pid⟩, rfl, rfl, closed, ?_⟩
        intro _
        change Function.update system.contents child.fd
          (system.contents child.fd ++ [system.job.pgid]) child.fd ≠ []
        rw [Function.update_self]
        exact List.append_ne_nil_of_right_ne_nil _ (List.cons_ne_nil _ _)
  | writeFails phase =>
      rw [phase] at progress
      obtain ⟨earlier, child, current, _⟩ := progress
      apply invariant.move invariant.ends
      exact ⟨earlier, child, current.children, current.settled, current.pid⟩
  | writeKills _ _ =>
      apply invariant.move
      · simp [PipeEnds.none]
      · trivial
  | closeWritten phase =>
      rw [phase] at progress
      obtain ⟨earlier, child, current, hfd, hfd2, closed, sent⟩ := progress
      apply invariant.move
      · exact fun pipe holds => invariant.ends pipe (Finset.mem_of_mem_erase holds)
      · exact ⟨earlier, child, ⟨current.children, current.settled, current.pid⟩, hfd, hfd2,
          fun holds => closed (Finset.mem_of_mem_erase holds), sent⟩
  | @read pid value rest fd fd2 phase holds =>
      rw [phase] at progress
      obtain ⟨earlier, child, current, rfl, rfl, _⟩ := progress
      have coherent := invariant.coherent child current.mem
      have settled := coherent.told (by rw [holds]; exact List.cons_ne_nil _ _)
      have apart : child.fd ≠ child.fd2 := Nat.ne_of_lt coherent.pipes
      apply invariant.exchanged current (.inr rfl)
      · constructor
        case sent =>
          rw [Function.update_of_ne apart]
          exact coherent.sent
        case told => exact fun _ => settled
        case positive => exact coherent.positive
        case pipes => exact coherent.pipes
        case received => exact coherent.received
        case joined => exact coherent.joined
        case ends => exact coherent.ends
        case released => exact coherent.released
      · exact ⟨earlier, child, ⟨current.children, current.settled, current.pid⟩, rfl, rfl, settled⟩
  | readFails phase =>
      rw [phase] at progress
      obtain ⟨earlier, child, current, _⟩ := progress
      apply invariant.move invariant.ends
      exact ⟨earlier, child, current.children, current.settled, current.pid⟩
  | closeAnswered phase =>
      rw [phase] at progress
      obtain ⟨earlier, child, current, hfd, hfd2, settled⟩ := progress
      have closed : ∀ ends : PipeEnds, (∀ pipe ∈ ends.writes, pipe < system.made) →
          ({ system with phase := system.phase, ends } : System).Invariant := by
        intro ends bound
        apply invariant.move bound
        rw [phase]
        exact ⟨earlier, child, ⟨current.children, current.settled, current.pid⟩, hfd, hfd2, settled⟩
      exact (closed (system.ends.closeRead _) invariant.ends).continued _ (current.all_settled settled)
  | kill phase =>
      rw [phase] at progress
      obtain ⟨earlier, child, current⟩ := progress
      apply invariant.kill
      intro other member
      obtain ⟨before, old, rfl⟩ := List.mem_map.mp member
      rw [current.children] at old
      rcases List.mem_append.mp old with past | last
      · have settled := current.settled before past
        refine .inl ?_
        split
        · exact ⟨settled.group, settled.phase⟩
        · exact settled
      · cases List.mem_singleton.mp last
        rw [if_pos (by simpa using current.pid)]
        exact .inr (.inr rfl)
  | killGroup phase _ =>
      rw [phase] at progress
      apply invariant.kill
      intro other member
      obtain ⟨before, old, rfl⟩ := List.mem_map.mp member
      rcases progress before old with settled | ended | killed
      · rw [if_pos (by simpa using settled.group)]
        exact .inr rfl
      · split
        · exact .inl ended
        · exact .inl ended
      · split
        · exact .inr rfl
        · exact .inr killed
  | giveUp _ none =>
      apply invariant.move invariant.ends
      intro child member
      exact absurd none (invariant.pgid_ne_zero (List.ne_nil_of_mem member))

end ParentStep

/-! ## Every interleaving -/

theorem System.Reachable.invariant {shellPgid : Int} {command : Command} {system : System}
    (reached : system.Reachable shellPgid command) : system.Invariant := by
  induction reached with
  | refl => exact System.invariant_start command
  | tail _ step ih =>
      cases step with
      | parent step => exact ih.parentStep step
      | child split step => exact ih.childStep split step

theorem ChildProcess.Settled.not_waiting {system : System} {pgid : Int} {child : ChildProcess}
    (settled : child.Settled pgid) : ¬ system.ChildWaits child := by
  intro waits
  have told := settled.phase
  rw [waits.1] at told
  cases told

/-- A parent that is blocked waits for a child that is alive and not blocked. -/
theorem System.Invariant.waits {system : System} (invariant : system.Invariant) {pid : Int}
    {fd fd2 : Nat} (phase : system.phase = .handshake .reading pid fd fd2)
    (writable : system.Writable fd2) :
    (∃ child ∈ system.children, child.pid = pid ∧ child.phase ≠ .terminated ∧
        fd2 ∈ child.ends.writes) ∧
      ∀ child ∈ system.children, ¬ system.ChildWaits child := by
  have progress := invariant.progress
  rw [phase] at progress
  obtain ⟨earlier, last, current, rfl, rfl, closed, sent⟩ := progress
  constructor
  · rcases writable with own | ⟨child, member, holds⟩
    · exact absurd own closed
    · have coherent := invariant.coherent child member
      rcases invariant.behind current child member with rfl | ⟨_, below⟩
      · refine ⟨child, member, current.pid, fun ended => ?_, holds⟩
        rw [coherent.released ended] at holds
        simp [PipeEnds.none] at holds
      · have bound := coherent.ends last.fd2 holds
        have pipes := (invariant.coherent last current.mem).pipes
        omega
  · intro child member
    rw [current.children] at member
    rcases List.mem_append.mp member with past | here
    · exact (current.settled child past).not_waiting
    · cases List.mem_singleton.mp here
      intro waits
      exact sent (by rw [waits.1]; rfl) waits.2.1

/-- The parent has gone on after it has launched the child. -/
def System.Past (system : System) (child : ChildProcess) : Prop :=
  match system.phase with
  | .calling | .piped _ | .forking _ _ | .returned (some _) => True
  | .handshake _ pid _ _ => child.pid ≠ pid
  | _ => False

theorem System.Invariant.past {system : System} (invariant : system.Invariant)
    {child : ChildProcess} (member : child ∈ system.children) (past : system.Past child) :
    child.Settled system.job.pgid := by
  have progress := invariant.progress
  unfold System.Past at past
  cases phase : system.phase with
  | calling =>
      rw [phase] at progress
      exact progress.settled child member
  | piped fd =>
      rw [phase] at progress
      exact progress.1.settled child member
  | forking fd fd2 =>
      rw [phase] at progress
      exact progress.1.settled child member
  | handshake stage pid fd fd2 =>
      rw [phase] at progress past
      obtain ⟨earlier, last, current, _⟩ := progress
      rw [current.children] at member
      rcases List.mem_append.mp member with before | here
      · exact current.settled child before
      · cases List.mem_singleton.mp here
        exact absurd current.pid past
  | returned info =>
      rw [phase] at progress past
      cases info with
      | none => exact past.elim
      | some _ => exact progress child member
  | killing _ | failed | dead =>
      rw [phase] at past
      exact past.elim

/-- In every interleaving: the parent and a child never wait for each other; a child is in
the process group of the first child before the parent goes on and before `execvp`; and
when the launch fails every child that has not ended has been sent `SIGKILL`. -/
theorem handshake_settles_children {shellPgid : Int} {command : Command} {system : System}
    (reached : system.Reachable shellPgid command) :
    (system.ParentWaits → (∃ child ∈ system.children, child.phase ≠ .terminated) ∧
        ∀ child ∈ system.children, ¬ system.ChildWaits child) ∧
      (∀ child ∈ system.children, system.Past child →
        child.group = (system.children.map (·.pid)).headD 0) ∧
      (∀ child ∈ system.children, child.phase = .starting ∨ child.phase = .running →
        child.group = (system.children.map (·.pid)).headD 0) ∧
      (system.phase = .returned none → ∀ child ∈ system.children,
        child.phase = .terminated ∨ child.killed = true) := by
  have invariant := reached.invariant
  refine ⟨?_, ?_, ?_, ?_⟩
  · intro waits
    obtain ⟨pid, fd, fd2, phase, _, writable⟩ := waits
    obtain ⟨⟨child, member, _, alive, _⟩, none⟩ := invariant.waits phase writable
    exact ⟨⟨child, member, alive⟩, none⟩
  · intro child member past
    rw [← invariant.leader]
    exact (invariant.past member past).group
  · intro child member launched
    rw [← invariant.leader]
    apply (invariant.coherent child member).joined
    rcases launched with phase | phase
    · rw [phase]
      rfl
    · rw [phase]
      rfl
  · intro phase
    have progress := invariant.progress
    rw [phase] at progress
    exact progress

/-- The parent of `sleep` waits for its answer, and the child can go on. -/
theorem sleep_handshake :
    let command : Command :=
      { commandString := "sleep".toList
        commandCalls := [newCommandCall ["sleep".toList] "sleep".toList]
        background := false
        openPipes := [] }
    ∃ system : System, system.Reachable 1 command ∧ system.ParentWaits ∧
      system.children.length = 1 ∧ ∀ child ∈ system.children, ¬ system.ChildWaits child := by
  intro command
  have started : (System.start command).Reachable 1 command := .refl
  have piped := started.tail (.parent (.pipe rfl rfl (by decide)))
  have both := piped.tail (.parent (.pipeAgain rfl))
  have forked := both.tail (.parent (.fork rfl rfl (show (0 : Int) < 5 by decide)))
  have closed := forked.tail (.parent (.closeRead rfl))
  have closed' := closed.tail (.parent (.closeWrite rfl))
  have written := closed'.tail (.parent (.write rfl (.inr ⟨_, .head _, by decide⟩)))
  have reading := written.tail (.parent (.closeWritten rfl))
  refine ⟨_, reading, ?_, rfl, ?_⟩
  · exact ⟨5, 0, 1, rfl, rfl, .inr ⟨_, .head _, by decide⟩⟩
  · apply ((handshake_settles_children reading).1 _).2
    exact ⟨5, 0, 1, rfl, rfl, .inr ⟨_, .head _, by decide⟩⟩

end Jsh
