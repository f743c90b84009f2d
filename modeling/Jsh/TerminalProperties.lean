import Jsh.Terminal

/-!
# Who has the terminal at the prompt

In every interleaving without one of the incidents that lose the terminal, the shell has
it back when it returns to the prompt.
-/

set_option autoImplicit false

namespace Jsh

/-! ## Children that cannot take the terminal -/

/-- The child has told its parent that it has joined the process group, and lives. -/
def ChildPhase.spoke : ChildPhase → Bool
  | .told | .placing | .starting | .running => true
  | _ => false

/-- The child has taken the terminal, or is the only one and will never learn its process
group. -/
def Launch.Mute (launch : Launch) (child : ChildProcess) : Prop :=
  child.phase.hasTaken = true ∨ launch.system.children = [child] ∧
    child.phase.expects = true ∧ launch.system.contents child.fd = []

/-- No child can take the terminal any more. -/
def Launch.Quiet (launch : Launch) : Prop :=
  launch.foreground = true → ∀ child ∈ launch.system.children, launch.Mute child

/-- The terminal is where it may be at the prompt, and no child can take it. -/
structure Session.Safe (session : Session) (home : Int → Prop) : Prop where
  terminal : home session.terminal
  quiet : session.Quiet

/-- What holds of the only child of a command in the foreground in a stage of its handshake. -/
def Session.Unheard (session : Session) (home : Int → Prop) (child : ChildProcess) : Stage → Prop
  | .closingRead | .closingWrite | .writing =>
      home session.terminal ∧ session.system.contents child.fd2 = [] ∧
        session.system.contents child.fd = [] ∧
          (child.phase.expects = true ∨ child.phase = .terminated)
  | .written | .reading =>
      session.system.contents child.fd2 = [] →
        home session.terminal ∧ child.phase.spoke = false
  | .answered => True

/-- What holds during the launch of a command in the foreground. -/
def Session.Launching (session : Session) (home : Int → Prop) : ParentPhase → Prop
  | .calling | .piped _ | .forking _ _ => session.system.children = [] → home session.terminal
  | .handshake stage _ fd fd2 => ∀ child, session.system.children = [child] →
      child.fd = fd ∧ child.fd2 = fd2 ∧ session.Unheard home child stage
  | .killing _ | .failed | .returned none => session.Safe home
  | .returned (some _) | .dead => True

/-- What holds in a stage of the session. -/
def Session.Kept (session : Session) (home : Int → Prop) : SessionStage → Prop
  | .launching => session.system.Invariant ∧
      (session.foreground = false → home session.terminal) ∧
        (session.foreground = true → session.Launching home session.system.phase)
  | .giving | .prompt => session.Safe home
  | .continuing => True
  | .waiting _ waited => session.foreground = true →
      ∀ child ∈ session.system.children.take waited, child.phase.hasTaken = true
  | .taking => session.foreground = true →
      ∀ child ∈ session.system.children, child.phase.hasTaken = true

/-! ## Steps of a child -/

section ChildStep

variable {contents contents' : Nat → List Int} {child child' : ChildProcess}

theorem ChildStep.hasTaken (step : ChildStep contents child contents' child')
    (taken : child.phase.hasTaken = true) : child'.phase.hasTaken = true := by
  cases step with
  | close phase | closeOther phase | read phase _ | closeRead phase | setpgid phase | write phase
  | closeWrite phase =>
      rw [phase] at taken
      cases taken
  | tcsetpgrp _ | execvp _ | exit _ => rfl

/-- A child that finds nothing to read goes no further than its `read`. -/
theorem ChildStep.stuck (step : ChildStep contents child contents' child')
    (expects : child.phase.expects = true) (empty : contents child.fd = []) :
    contents' = contents ∧ (child'.phase.expects = true ∨ child'.phase = .terminated) := by
  cases step with
  | close _ | closeOther _ => exact ⟨rfl, .inl rfl⟩
  | exit _ => exact ⟨rfl, .inr rfl⟩
  | read _ holds =>
      rw [empty] at holds
      cases holds
  | closeRead phase | setpgid phase | write phase | closeWrite phase | tcsetpgrp phase
  | execvp phase =>
      rw [phase] at expects
      cases expects

/-- A child speaks by its `write` only. -/
theorem ChildStep.unheard (step : ChildStep contents child contents' child')
    (apart : child.fd ≠ child.fd2) (silent : contents' child.fd2 = []) :
    contents child.fd2 = [] ∧ (child.phase.spoke = false → child'.phase.spoke = false) := by
  cases step with
  | close _ | closeOther _ | closeRead _ | setpgid _ | exit _ => exact ⟨silent, fun _ => rfl⟩
  | read _ _ =>
      rw [Function.update_of_ne apart.symm] at silent
      exact ⟨silent, fun _ => rfl⟩
  | write _ =>
      rw [Function.update_self] at silent
      simp at silent
  | closeWrite phase | tcsetpgrp phase | execvp phase =>
      refine ⟨silent, fun quiet => ?_⟩
      rw [phase] at quiet
      cases quiet

variable {launch : Launch} {terminal : Int} {earlier later : List ChildProcess}

theorem Launch.taken_of_not_placing (phase : child.phase ≠ .placing) :
    launch.taken terminal child child' = terminal := by
  unfold Launch.taken
  rw [if_neg fun placing => phase placing.2.1]

theorem Launch.taken_of_background (background : launch.foreground = false) :
    launch.taken terminal child child' = terminal := by
  unfold Launch.taken
  rw [if_neg (by simp [background])]

/-- The only one of some children. -/
theorem only_child {only : ChildProcess} (same : earlier ++ child :: later = [only]) :
    earlier = [] ∧ child = only ∧ later = [] := by
  have length := congrArg List.length same
  simp only [List.length_append, List.length_cons, List.length_nil] at length
  have none : earlier = [] := List.eq_nil_of_length_eq_zero (by omega)
  have none' : later = [] := List.eq_nil_of_length_eq_zero (by omega)
  subst none none'
  exact ⟨rfl, List.singleton_inj.mp same, rfl⟩

theorem Launch.Mute.not_placing (mute : launch.Mute child) : child.phase ≠ .placing := by
  intro placing
  rcases mute with taken | ⟨_, expects, _⟩
  · rw [placing] at taken
    cases taken
  · rw [placing] at expects
    cases expects

/-- Children that cannot take the terminal do not. -/
theorem Launch.Quiet.kept (quiet : launch.Quiet)
    (split : launch.system.children = earlier ++ child :: later)
    (step : ChildStep launch.system.contents child contents' child') :
    launch.taken terminal child child' = terminal ∧
      ({ launch with system := launch.system.after contents' (earlier ++ child' :: later) } :
        Launch).Quiet := by
  have here : child ∈ launch.system.children := by simp [split]
  constructor
  · cases background : launch.foreground with
    | false => exact Launch.taken_of_background background
    | true => exact Launch.taken_of_not_placing (quiet background child here).not_placing
  · intro foreground
    have mute := quiet foreground
    rcases mute child here with taken | ⟨only, expects, empty⟩
    · have taken' : ∀ other ∈ earlier ++ child :: later, other.phase.hasTaken = true := by
        intro other member
        rcases mute other (split ▸ member) with taken' | ⟨only, _⟩
        · exact taken'
        · rw [only] at here
          cases List.mem_singleton.mp here
          exact taken
      intro other member
      exact .inl (forall_replaced taken' step.hasTaken other member)
    · obtain ⟨rfl, _, rfl⟩ := only_child (split ▸ only)
      intro other member
      cases List.mem_singleton.mp member
      obtain ⟨rfl, expects' | ended⟩ := step.stuck expects empty
      · refine .inr ⟨rfl, expects', ?_⟩
        change launch.system.contents child'.fd = []
        rw [step.moved.fd]
        exact empty
      · exact .inl (by rw [ended]; rfl)

theorem LaunchStep.quiet {launch' : Launch} {terminal' : Int} (quiet : launch.Quiet)
    (step : LaunchStep terminal launch terminal' launch') :
    terminal' = terminal ∧ launch'.Quiet := by
  cases step with
  | child split step => exact quiet.kept split step

variable {session : Session} {home : Int → Prop}

/-- The session after a step of a child. -/
def Session.after (session : Session) (contents : Nat → List Int) (children : List ChildProcess)
    (child child' : ChildProcess) : Session :=
  { foreground := session.foreground
    system := session.system.after contents children
    terminal := session.taken session.terminal child child'
    stage := session.stage }

theorem Session.Safe.after (safe : session.Safe home)
    (split : session.system.children = earlier ++ child :: later)
    (step : ChildStep session.system.contents child contents' child') :
    (session.after contents' (earlier ++ child' :: later) child child').Safe home := by
  obtain ⟨same, quiet⟩ : session.taken session.terminal child child' = session.terminal ∧ _ :=
    safe.quiet.kept split step
  refine ⟨?_, quiet⟩
  change home (session.taken session.terminal child child')
  rw [same]
  exact safe.terminal

theorem Session.Unheard.after {stage : Stage} (unheard : session.Unheard home child stage)
    (apart : child.fd ≠ child.fd2)
    (step : ChildStep session.system.contents child contents' child') :
    (session.after contents' [child'] child child').Unheard home child' stage := by
  have moved := step.moved
  cases stage with
  | closingRead | closingWrite | writing =>
      obtain ⟨holds, silent, empty, early⟩ := unheard
      have expects := early.resolve_right moved.alive
      obtain ⟨rfl, early'⟩ := step.stuck expects empty
      have same : session.taken session.terminal child child' = session.terminal := by
        apply Launch.taken_of_not_placing
        intro placing
        rw [placing] at expects
        cases expects
      refine ⟨?_, ?_, ?_, early'⟩
      · change home (session.taken session.terminal child child')
        rw [same]
        exact holds
      · rw [moved.fd2]
        exact silent
      · rw [moved.fd]
        exact empty
  | written | reading =>
      intro silent
      rw [moved.fd2] at silent
      obtain ⟨silent', spoke⟩ := step.unheard apart silent
      obtain ⟨holds, quiet⟩ := unheard silent'
      have same : session.taken session.terminal child child' = session.terminal := by
        apply Launch.taken_of_not_placing
        intro placing
        rw [placing] at quiet
        cases quiet
      refine ⟨?_, spoke quiet⟩
      change home (session.taken session.terminal child child')
      rw [same]
      exact holds
  | answered => trivial

theorem Session.Launching.after {phase : ParentPhase} (launching : session.Launching home phase)
    (invariant : session.system.Invariant)
    (split : session.system.children = earlier ++ child :: later)
    (step : ChildStep session.system.contents child contents' child') :
    (session.after contents' (earlier ++ child' :: later) child child').Launching home phase := by
  cases phase with
  | calling | piped _ | forking _ _ =>
      intro none
      exact absurd none (List.append_ne_nil_of_right_ne_nil _ (List.cons_ne_nil _ _))
  | handshake stage pid fd fd2 =>
      intro only same
      obtain ⟨rfl, rfl, rfl⟩ := only_child same
      obtain ⟨hfd, hfd2, unheard⟩ := launching child split
      have coherent := invariant.coherent child (by simp [split])
      refine ⟨step.moved.fd.trans hfd, step.moved.fd2.trans hfd2, ?_⟩
      exact unheard.after (Nat.ne_of_lt coherent.pipes) step
  | killing _ | failed => exact Session.Safe.after launching split step
  | returned info =>
      cases info with
      | none => exact Session.Safe.after launching split step
      | some _ => trivial
  | dead => trivial

theorem Session.Kept.after {stage : SessionStage} (kept : session.Kept home stage)
    (split : session.system.children = earlier ++ child :: later)
    (step : ChildStep session.system.contents child contents' child') :
    (session.after contents' (earlier ++ child' :: later) child child').Kept home stage := by
  cases stage with
  | launching =>
      obtain ⟨invariant, background, foreground⟩ := kept
      refine ⟨invariant.childStep split step, fun not => ?_, fun own => ?_⟩
      · have own : session.toLaunch.foreground = false := not
        change home (session.taken session.terminal child child')
        rw [Launch.taken_of_background own]
        exact background not
      · exact (foreground own).after invariant split step
  | giving | prompt => exact Session.Safe.after kept split step
  | continuing => trivial
  | waiting fg waited =>
      intro own other member
      have taken := kept own
      have member' : other ∈ (earlier ++ child' :: later).take waited := member
      simp only [split, List.take_append] at taken member'
      cases rest : waited - earlier.length with
      | zero =>
          simp only [rest, List.take_zero] at taken member'
          exact taken other member'
      | succ rest' =>
          simp only [rest, List.take_succ_cons] at taken member'
          exact forall_replaced taken step.hasTaken other member'
  | taking =>
      intro own
      exact forall_replaced (split ▸ kept own) step.hasTaken

end ChildStep

/-! ## Steps of the launch -/

section ParentStep

variable {session : Session} {home : Int → Prop} {shellPgid : Int} {finish : System}

theorem Launch.Quiet.kill {launch : Launch} {phase : ParentPhase} (quiet : launch.Quiet)
    (target : ChildProcess → Bool) :
    ({ launch with system := { launch.system.kill target with phase } } : Launch).Quiet := by
  intro own other member
  obtain ⟨before, old, rfl⟩ := List.mem_map.mp member
  have same : (if target before then { before with killed := true } else before).phase =
        before.phase ∧
      (if target before then { before with killed := true } else before).fd = before.fd := by
    split
    · exact ⟨rfl, rfl⟩
    · exact ⟨rfl, rfl⟩
  rcases quiet own before old with taken | ⟨only, expects, empty⟩
  · refine .inl ?_
    rw [same.1]
    exact taken
  · refine .inr ⟨?_, ?_, ?_⟩
    · exact congrArg (List.map _) only
    · rw [same.1]
      exact expects
    · rw [same.2]
      exact empty

theorem Session.Launching.parentStep (launching : session.Launching home session.system.phase)
    (invariant : session.system.Invariant) (step : ParentStep shellPgid session.system finish)
    (accepted : ¬ session.system.Refuses finish) :
    ({ session with system := finish } : Session).Launching home finish.phase := by
  have progress := invariant.progress
  cases step with
  | finish phase _ =>
      rw [phase] at launching progress
      cases info : session.system.info with
      | none =>
          have first : session.system.index = 0 := by
            by_contra later
            exact invariant.info later info
          have none := progress.first first
          refine ⟨launching none, fun _ child member => ?_⟩
          rw [show session.system.children = [] from none] at member
          cases member
      | some info => trivial
  | internal exitCode phase _ _ | pipe phase _ _ | pipeAgain phase =>
      rw [phase] at launching
      exact launching
  | pipeFails phase _ _ | pipeAgainFails phase | forkFails phase | writeFails phase
  | readFails phase =>
      exact absurd ⟨by rw [phase]; rfl, rfl⟩ accepted
  | fork phase _ _ =>
      rw [phase] at launching
      intro child same
      obtain ⟨none, rfl, _⟩ := only_child same
      have empty : ∀ pipe, session.system.contents pipe = [] := by
        intro pipe
        apply invariant.unused
        rw [none]
        exact fun _ member => nomatch member
      exact ⟨rfl, rfl, launching none, empty _, empty _, .inl rfl⟩
  | closeRead phase | closeWrite phase | closeWritten phase =>
      rw [phase] at launching
      exact launching
  | write phase _ =>
      rw [phase] at launching
      intro child only
      obtain ⟨hfd, hfd2, holds, _, _, early⟩ := launching child only
      refine ⟨hfd, hfd2, fun _ => ⟨holds, ?_⟩⟩
      rcases early with expects | ended
      · cases phase' : child.phase with
        | forked | closing | reading => rfl
        | _ =>
            rw [phase'] at expects
            cases expects
      · rw [ended]
        rfl
  | writeKills _ _ => trivial
  | read phase _ =>
      rw [phase] at launching
      intro child only
      obtain ⟨hfd, hfd2, _⟩ := launching child only
      exact ⟨hfd, hfd2, trivial⟩
  | closeAnswered phase =>
      rw [phase] at progress
      obtain ⟨earlier, child, current, _⟩ := progress
      intro none
      have member := current.mem
      rw [show session.system.children = [] from none] at member
      cases member
  | kill phase | killGroup phase _ =>
      rw [phase] at launching
      exact ⟨launching.terminal, launching.quiet.kill _⟩
  | giveUp phase _ =>
      rw [phase] at launching
      exact ⟨launching.terminal, launching.quiet⟩

/-- A launch that fails without harm leaves the terminal as it was. -/
theorem Session.Launching.refused (launching : session.Launching home session.system.phase)
    (step : ParentStep shellPgid session.system finish) (refuses : session.system.Refuses finish)
    (harmless : session.system.Harmless) :
    ({ session with system := finish } : Session).Launching home finish.phase := by
  unfold System.Harmless at harmless
  have none : session.system.children = [] → session.Quiet := by
    intro none _ child member
    rw [none] at member
    cases member
  cases step with
  | pipeFails phase _ _ | pipeAgainFails phase | forkFails phase =>
      rw [phase] at launching harmless
      exact ⟨launching harmless, none harmless⟩
  | writeFails phase =>
      rw [phase] at launching harmless
      obtain ⟨child, only⟩ := List.length_eq_one_iff.mp harmless
      obtain ⟨_, _, holds, _, empty, early⟩ := launching child only
      refine ⟨holds, fun _ other member => ?_⟩
      have member' : other ∈ session.system.children := member
      rw [only] at member'
      cases List.mem_singleton.mp member'
      rcases early with expects | ended
      · exact .inr ⟨only, expects, empty⟩
      · exact .inl (by rw [ended]; rfl)
  | readFails phase =>
      rw [phase] at launching harmless
      obtain ⟨child, only, ended, silent⟩ := harmless
      obtain ⟨_, rfl, unheard⟩ := launching child only
      refine ⟨(unheard silent).1, fun _ other member => ?_⟩
      have member' : other ∈ session.system.children := member
      rw [only] at member'
      cases List.mem_singleton.mp member'
      exact .inl (by rw [ended]; rfl)
  | kill phase | killGroup phase _ | giveUp phase _ =>
      have fine := refuses.1
      rw [phase] at fine
      cases fine
  | finish _ _ | internal _ _ _ _ | pipe _ _ _ | pipeAgain _ | fork _ _ _ | closeRead _
  | closeWrite _ | write _ _ | writeKills _ _ | closeWritten _ | read _ _ | closeAnswered _ =>
      cases refuses.2

end ParentStep

/-! ## Steps of a session -/

section Session

variable {session : Session} {home : Int → Prop} {shellPgid : Int}

/-- A job whose processes have all taken the terminal cannot take it back. -/
theorem Launch.quiet_of_taken {launch : Launch} (taken : launch.foreground = true →
    ∀ child ∈ launch.system.children, child.phase.hasTaken = true) : launch.Quiet :=
  fun own child member => .inl (taken own child member)

theorem Session.Kept.launched {finish : System} (kept : session.Kept home session.stage)
    (stage : session.stage = .launching) (step : ParentStep shellPgid session.system finish)
    (foreground : session.Launching home session.system.phase → session.foreground = true →
      ({ session with system := finish } : Session).Launching home finish.phase) :
    ({ session with system := finish } : Session).Kept home session.stage := by
  have launching : session.Kept home .launching := stage ▸ kept
  have launched : ({ session with system := finish } : Session).Kept home .launching :=
    ⟨launching.1.parentStep step, launching.2.1, fun own => foreground (launching.2.2 own) own⟩
  simpa only [stage] using launched

theorem Session.Kept.step {incident : Incident} {finish : Session}
    (kept : session.Kept home session.stage) (shell : home shellPgid)
    (step : SessionStep shellPgid session incident finish) (regular : session.Regular incident) :
    finish.Kept home finish.stage := by
  cases step with
  | child step =>
      cases step with
      | child split step => exact kept.after split step
  | launch stage step accepted =>
      have launching : session.Kept home .launching := stage ▸ kept
      exact kept.launched stage step fun early _ => early.parentStep launching.1 step accepted
  | refuse stage step refuses =>
      exact kept.launched stage step fun early own => early.refused step refuses (regular own)
  | fail stage phase =>
      rw [stage] at kept
      obtain ⟨_, background, foreground⟩ := kept
      rw [phase] at foreground
      cases own : session.foreground with
      | false => exact ⟨background own, fun own' => by cases own.symm.trans own'⟩
      | true => exact ⟨(foreground own).terminal, (foreground own).quiet⟩
  | keep stage _ background =>
      rw [stage] at kept
      exact ⟨kept.2.1 background, fun own => by cases background.symm.trans own⟩
  | wait _ _ _ | signal _ =>
      intro _ child member
      rw [List.take_zero] at member
      cases member
  | give _ => trivial
  | giveFails stage =>
      rw [stage] at kept
      exact ⟨kept.terminal, kept.quiet⟩
  | signalFails _ => exact regular.elim
  | ended stage found ended =>
      rw [stage] at kept
      intro own other member
      have member' : other ∈ session.system.children.take (_ + 1) := member
      rw [List.take_add_one, found] at member'
      rcases List.mem_append.mp member' with before | here
      · exact kept own other before
      · cases List.mem_singleton.mp here
        rw [ended]
        rfl
  | stopped stage found _ =>
      rw [stage] at kept
      intro own other member
      have member' : other ∈ session.system.children.take (_ + 1) := member
      rw [List.take_add_one, found] at member'
      rcases List.mem_append.mp member' with before | here
      · exact kept own other before
      · cases List.mem_singleton.mp here
        exact regular own
  | waited stage all =>
      rw [stage] at kept
      intro own child member
      apply kept own child
      rw [List.take_of_length_le all]
      exact member
  | waitFails stage _ =>
      obtain ⟨rfl, taken⟩ := regular
      exact taken
  | take stage =>
      rw [stage] at kept
      exact ⟨shell, Launch.quiet_of_taken kept⟩

/-- Another process takes the terminal. -/
theorem Session.Kept.retaken {home' : Int → Prop} {terminal : Int} {stage : SessionStage}
    (kept : session.Kept home stage) (holds : home session.terminal → home' terminal) :
    ({ session with terminal } : Session).Kept home' stage := by
  have safe : session.Safe home → ({ session with terminal } : Session).Safe home' :=
    fun safe => ⟨holds safe.terminal, safe.quiet⟩
  cases stage with
  | launching =>
      obtain ⟨invariant, background, foreground⟩ := kept
      refine ⟨invariant, fun own => holds (background own), fun own => ?_⟩
      have launching := foreground own
      change Session.Launching _ home' session.system.phase
      cases phase : session.system.phase with
      | calling | piped _ | forking _ _ =>
          rw [phase] at launching
          exact fun none => holds (launching none)
      | handshake handshake pid fd fd2 =>
          rw [phase] at launching
          intro child only
          obtain ⟨hfd, hfd2, unheard⟩ := launching child only
          refine ⟨hfd, hfd2, ?_⟩
          cases handshake with
          | closingRead | closingWrite | writing => exact ⟨holds unheard.1, unheard.2⟩
          | written | reading => exact fun silent => (unheard silent).imp_left holds
          | answered => trivial
      | killing _ | failed =>
          rw [phase] at launching
          exact safe launching
      | returned info =>
          rw [phase] at launching
          cases info with
          | none => exact safe launching
          | some _ => trivial
      | dead => trivial
  | giving | prompt => exact safe kept
  | continuing => trivial
  | waiting _ _ | taking => exact kept

end Session

/-! ## Every run -/

section Sessions

variable {sessions : Sessions} {shellPgid : Int} {command : Command}

/-- Where the terminal may be while `fg` runs in the pipeline of a command. -/
def Launch.Allows (launch : Launch) (shellPgid terminal : Int) : Prop :=
  terminal = shellPgid ∨ launch.foreground = true ∧ launch.system.children ≠ []

structure Sessions.Kept (sessions : Sessions) (shellPgid : Int) : Prop where
  past : ∀ launch ∈ sessions.past, launch.Quiet
  alone : sessions.outer = none →
    sessions.current.Kept (· = shellPgid) sessions.current.stage
  nested : ∀ launch, sessions.outer = some launch → launch.system.Invariant ∧
    launch.system.phase = .calling ∧
      sessions.current.Kept (launch.Allows shellPgid) sessions.current.stage

theorem Session.kept_execute (command : Command) (shellPgid : Int) :
    (Session.execute command shellPgid).Kept (· = shellPgid) .launching :=
  ⟨System.invariant_start command, fun _ => rfl, fun _ _ => rfl⟩

theorem Sessions.kept_start (command : Command) (shellPgid : Int) :
    (Sessions.start command shellPgid).Kept shellPgid where
  past _ member := nomatch member
  alone _ := Session.kept_execute command shellPgid
  nested _ none := nomatch none

/-- At the prompt the terminal is the shell's. -/
theorem Sessions.Kept.safe (kept : sessions.Kept shellPgid) (prompt : sessions.AtPrompt) :
    sessions.current.Safe (· = shellPgid) := by
  have alone := kept.alone prompt.2
  rw [prompt.1] at alone
  exact alone

theorem LaunchStep.allows {launch launch' : Launch} {terminal terminal' : Int}
    (step : LaunchStep terminal launch terminal' launch') (allows : launch.Allows shellPgid terminal) :
    launch'.Allows shellPgid terminal' := by
  cases step with
  | child split step =>
      cases own : launch.foreground with
      | false =>
          rw [Launch.taken_of_background own]
          refine .inl (allows.resolve_right fun foreground => ?_)
          cases own.symm.trans foreground.1
      | true =>
          exact .inr ⟨rfl, List.append_ne_nil_of_right_ne_nil _ (List.cons_ne_nil _ _)⟩

theorem Sessions.Kept.step {finish : Sessions} (kept : sessions.Kept shellPgid)
    (step : RegularStep shellPgid sessions finish) : finish.Kept shellPgid := by
  obtain ⟨incident, step, regular⟩ := step
  cases step with
  | current step =>
      constructor
      case past => exact kept.past
      case alone => exact fun none => (kept.alone none).step rfl step regular
      case nested =>
        intro launch outer
        obtain ⟨invariant, phase, inner⟩ := kept.nested launch outer
        exact ⟨invariant, phase, inner.step (.inl rfl) step regular⟩
  | outer outer step =>
      obtain ⟨invariant, phase, inner⟩ := kept.nested _ outer
      constructor
      case past => exact kept.past
      case alone => exact fun none => nomatch none
      case nested =>
        intro launch same
        cases same
        refine ⟨?_, ?_, inner.retaken step.allows⟩
        · cases step with
          | child split step => exact invariant.childStep split step
        · cases step with
          | child _ _ => exact phase
  | past split step =>
      obtain ⟨before, rest⟩ := List.forall_mem_append.mp (split ▸ kept.past)
      obtain ⟨here, after⟩ := List.forall_mem_cons.mp rest
      obtain ⟨rfl, here'⟩ := step.quiet here
      constructor
      case past =>
        exact List.forall_mem_append.mpr ⟨before, List.forall_mem_cons.mpr ⟨here', after⟩⟩
      case alone => exact kept.alone
      case nested => exact kept.nested
  | execute command prompt =>
      have safe := kept.safe prompt
      constructor
      case past => exact List.forall_mem_cons.mpr ⟨safe.quiet, kept.past⟩
      case alone =>
        intro _
        rw [safe.terminal]
        exact Session.kept_execute command shellPgid
      case nested => exact fun _ none => nomatch none
  | fg prompt split _ =>
      have safe := kept.safe prompt
      have quiet := List.forall_mem_cons.mpr ⟨safe.quiet, kept.past⟩
      rw [split] at quiet
      obtain ⟨before, rest⟩ := List.forall_mem_append.mp quiet
      obtain ⟨here, after⟩ := List.forall_mem_cons.mp rest
      constructor
      case past => exact List.forall_mem_append.mpr ⟨before, after⟩
      case alone => exact fun _ => ⟨safe.terminal, here⟩
      case nested => exact fun _ none => nomatch none
  | call stage none phase _ _ split _ =>
      have launching := kept.alone none
      rw [stage] at launching
      obtain ⟨invariant, background, foreground⟩ := launching
      rw [phase] at foreground
      obtain ⟨before, rest⟩ := List.forall_mem_append.mp (split ▸ kept.past)
      obtain ⟨here, after⟩ := List.forall_mem_cons.mp rest
      constructor
      case past => exact List.forall_mem_append.mpr ⟨before, after⟩
      case alone => exact fun none => nomatch none
      case nested =>
        intro launch same
        cases same
        refine ⟨invariant, phase, ?_, here⟩
        cases own : sessions.current.foreground with
        | false => exact .inl (background own)
        | true =>
            by_cases children : sessions.current.system.children = []
            · exact .inl (foreground own children)
            · exact .inr ⟨own, children⟩
  | finish exitCode stage outer =>
      obtain ⟨invariant, phase, inner⟩ := kept.nested _ outer
      rw [stage] at inner
      have progress := invariant.progress
      rw [phase] at progress
      constructor
      case past => exact List.forall_mem_cons.mpr ⟨inner.quiet, kept.past⟩
      case alone =>
        intro _
        refine ⟨invariant.continued _ progress.settled, fun own => ?_, fun _ children => ?_⟩
        · refine inner.terminal.resolve_right fun foreground => ?_
          cases own.symm.trans foreground.1
        · exact inner.terminal.resolve_right fun foreground => foreground.2 children
      case nested => exact fun _ none => nomatch none

theorem Sessions.RegularlyReached.kept (reached : sessions.RegularlyReached shellPgid command) :
    sessions.Kept shellPgid := by
  induction reached with
  | refl => exact Sessions.kept_start command shellPgid
  | tail _ step ih => exact ih.step step

/-- In every run whose steps are all regular the terminal is the shell's at the prompt. -/
theorem prompt_has_terminal (reached : sessions.RegularlyReached shellPgid command)
    (prompt : sessions.AtPrompt) : sessions.current.terminal = shellPgid :=
  (reached.kept.safe prompt).terminal

end Sessions

/-! ## A launch that fails too late -/

section Late

variable {sessions : Sessions} {shellPgid : Int} {command : Command}

theorem Sessions.RegularlyReached.reachable (reached : sessions.RegularlyReached shellPgid command) :
    sessions.Reachable shellPgid command := by
  induction reached with
  | refl => exact .refl
  | tail _ step ih =>
      obtain ⟨incident, step, _⟩ := step
      exact ih.tail ⟨incident, step⟩

theorem Sessions.RegularlyReached.session {current : Session}
    (reached : sessions.RegularlyReached shellPgid command)
    (step : SessionStep shellPgid sessions.current .none current) :
    ({ sessions with current } : Sessions).RegularlyReached shellPgid command :=
  reached.tail ⟨.none, .current step, trivial⟩

theorem Sessions.RegularlyReached.parent {finish : System}
    (reached : sessions.RegularlyReached shellPgid command)
    (stage : sessions.current.stage = .launching)
    (step : ParentStep shellPgid sessions.current.system finish)
    (accepted : finish.phase.refuses = false) :
    ({ sessions with current := { sessions.current with system := finish } } :
      Sessions).RegularlyReached shellPgid command := by
  apply reached.session
  apply SessionStep.launch stage step
  intro refuses
  cases accepted.symm.trans refuses.2

theorem Sessions.RegularlyReached.onlyChild {child child' : ChildProcess}
    {contents : Nat → List Int} (reached : sessions.RegularlyReached shellPgid command)
    (only : sessions.current.system.children = [child])
    (step : ChildStep sessions.current.system.contents child contents child') :
    ({ sessions with
        current := sessions.current.after contents [child'] child child' } :
      Sessions).RegularlyReached shellPgid command :=
  reached.session (.child (.child (show _ = [] ++ child :: [] from only) step))

/-- The first child of a command in the foreground can take the terminal before the next call
is launched. -/
theorem first_child_takes_terminal {call : CommandCall} {rest : List CommandCall} {pid : Int}
    (shellPgid : Int) (calls : command.commandCalls = call :: rest)
    (external : isInternalCommand call = false) (foreground : command.background = false)
    (positive : 0 < pid) :
    ∃ (sessions : Sessions) (child : ChildProcess),
      sessions.RegularlyReached shellPgid command ∧ sessions.outer = none ∧
      sessions.current.stage = .launching ∧ sessions.current.foreground = true ∧
      sessions.current.terminal = pid ∧ sessions.current.system.phase = .calling ∧
      sessions.current.system.calls = rest ∧ sessions.current.system.info ≠ none ∧
      sessions.current.system.job.pgid = pid ∧
      sessions.current.system.children = [child] ∧ child.phase = .starting := by
  have started : (Sessions.start command shellPgid).RegularlyReached shellPgid command := .refl
  have piped := started.parent rfl (.pipe rfl calls external) rfl
  have both := piped.parent rfl (.pipeAgain rfl) rfl
  have forked := both.parent rfl (.fork rfl calls positive) rfl
  have closed := forked.parent rfl (.closeRead rfl) rfl
  have closed' := closed.parent rfl (.closeWrite rfl) rfl
  have readable : 0 ∈ (insert 1 (insert 0 ∅) : Finset Nat) := by decide
  have written := closed'.parent rfl (.write rfl (.inr ⟨_, .head _, readable⟩)) rfl
  have reading := written.parent rfl (.closeWritten rfl) rfl
  have closing := reading.onlyChild rfl (.close rfl)
  have listening := closing.onlyChild rfl (.closeOther rfl)
  have received := listening.onlyChild rfl (.read rfl rfl)
  have joining := received.onlyChild rfl (.closeRead rfl)
  have joined := joining.onlyChild rfl (.setpgid rfl)
  have told := joined.onlyChild rfl (.write rfl)
  have placing := told.onlyChild rfl (.closeWrite rfl)
  have answered := placing.parent rfl (.read rfl rfl) rfl
  have launched := answered.parent rfl (.closeAnswered rfl) rfl
  have taken := launched.onlyChild rfl (.tcsetpgrp rfl)
  have own : (!command.background) = true := by simp [foreground]
  refine ⟨_, _, taken, rfl, rfl, own, ?_, rfl, ?_, Option.some_ne_none _, ?_, rfl, rfl⟩
  · exact if_pos ⟨own, rfl, rfl⟩
  · exact congrArg List.tail calls
  · exact System.continued_pgid _

/-- A launch that fails after the first call of a command in the foreground kills its process
group, but leaves it the terminal. -/
theorem late_failure_loses_terminal {call call' : CommandCall} {rest : List CommandCall} {pid : Int}
    (shellPgid : Int) (calls : command.commandCalls = call :: call' :: rest)
    (external : isInternalCommand call = false) (external' : isInternalCommand call' = false)
    (foreground : command.background = false) (positive : 0 < pid) :
    ∃ sessions : Sessions, sessions.Reachable shellPgid command ∧ sessions.AtPrompt ∧
      sessions.current.terminal = pid := by
  obtain ⟨sessions, child, reached, alone, stage, _, terminal, phase, left, _, pgid, _, _⟩ :=
    first_child_takes_terminal shellPgid calls external foreground positive
  have refused := reached.reachable.tail ⟨_, .current (.refuse stage (.pipeFails phase left external')
    ⟨by rw [phase]; rfl, rfl⟩)⟩
  have led : sessions.current.system.job.pgid ≠ 0 := by omega
  have killed := refused.tail ⟨_, .current (.launch stage (.killGroup rfl led)
    fun refuses => nomatch refuses.1)⟩
  have failed := killed.tail ⟨_, .current (.fail stage rfl)⟩
  exact ⟨_, failed, ⟨rfl, alone⟩, terminal⟩

/-- The launch of `a` in `a | b` fails once `b`, which is launched first, has taken the
terminal. -/
theorem pipeline_loses_terminal :
    let command : Command :=
      { commandString := "a | b".toList
        commandCalls :=
          [{ newCommandCall ["b".toList] "b".toList with readingPipes := [0], stdin := 3 },
            { newCommandCall ["a".toList] "a ".toList with writingPipes := [0], stdout := 4 }]
        background := false
        openPipes := [(3, 4)] }
    ∃ sessions : Sessions, sessions.Reachable 1 command ∧ sessions.AtPrompt ∧
      sessions.current.terminal = 5 :=
  late_failure_loses_terminal 1 rfl (by decide) (by decide) rfl (by decide)

/-- The shell has the terminal again when `sleep` has ended. -/
theorem sleep_returns_terminal :
    let command : Command :=
      { commandString := "sleep".toList
        commandCalls := [newCommandCall ["sleep".toList] "sleep".toList]
        background := false
        openPipes := [] }
    ∃ sessions : Sessions, sessions.RegularlyReached 1 command ∧ sessions.AtPrompt ∧
      sessions.current.system.children.length = 1 ∧ sessions.current.terminal = 1 := by
  intro command
  have external : isInternalCommand (newCommandCall ["sleep".toList] "sleep".toList) = false := by
    decide
  have calls : command.commandCalls = [newCommandCall ["sleep".toList] "sleep".toList] := rfl
  obtain ⟨sessions, child, reached, alone, stage, own, _, phase, left, launched, _, only, starting⟩ :=
    first_child_takes_terminal 1 calls external rfl (show (0 : Int) < 5 by decide)
  obtain ⟨info, some⟩ := Option.ne_none_iff_exists'.mp launched
  have alive : child.phase ≠ .terminated := by
    rw [starting]
    decide
  have finished := reached.parent stage (.finish phase left) rfl
  have waiting := finished.session (.wait stage (congrArg ParentPhase.returned some) own)
  have exited := waiting.onlyChild only (.exit alive)
  have ended := exited.session (.ended rfl rfl rfl)
  have waited := ended.session (.waited rfl (Nat.le_refl 1))
  have taken := waited.session (.take rfl)
  exact ⟨_, taken, ⟨rfl, alone⟩, rfl, prompt_has_terminal taken ⟨rfl, alone⟩⟩

end Late

end Jsh
