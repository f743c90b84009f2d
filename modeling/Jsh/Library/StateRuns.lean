import Mathlib.Order.Defs.Unbundled

/-! What the runs of state-and-exception functions do to the state: how a run of a
sequence splits into runs of its parts, and relations every run keeps to, whether it
returns or throws. -/

set_option autoImplicit false

namespace Library

variable {ε σ α β : Type}

/-! ## Splitting a run -/

theorem bind_eq_ok {first : EStateM ε σ α} {next : α → EStateM ε σ β} {start finish : σ}
    {value : β} :
    (first >>= next) start = .ok value finish ↔
      ∃ middle state, first start = .ok middle state ∧ next middle state = .ok value finish := by
  change EStateM.bind first next start = _ ↔ _
  unfold EStateM.bind
  cases first start <;> simp [and_assoc]

theorem bind_eq_error {first : EStateM ε σ α} {next : α → EStateM ε σ β} {start finish : σ}
    {thrown : ε} :
    (first >>= next) start = .error thrown finish ↔
      first start = .error thrown finish ∨
        ∃ middle state, first start = .ok middle state ∧
          next middle state = .error thrown finish := by
  change EStateM.bind first next start = _ ↔ _
  unfold EStateM.bind
  cases first start <;> simp [and_assoc]

theorem bind_of_ok {first : EStateM ε σ α} {next : α → EStateM ε σ β} {start state : σ}
    {middle : α} (ran : first start = .ok middle state) :
    (first >>= next) start = next middle state := by
  change EStateM.bind first next start = _
  rw [EStateM.bind, ran]

theorem pure_apply (value : α) (start : σ) :
    (pure value : EStateM ε σ α) start = .ok value start := rfl

theorem get_apply (start : σ) : (get : EStateM ε σ σ) start = .ok start start := rfl

theorem modify_apply (update : σ → σ) (start : σ) :
    (modify update : EStateM ε σ PUnit) start = .ok ⟨⟩ (update start) := rfl

/-- Whether a run returns, with a value and a state that pass a check. -/
def returns (check : α → σ → Bool) : EStateM.Result ε σ α → Bool
  | .ok value state => check value state
  | .error _ _ => false

theorem exists_of_returns {check : α → σ → Bool} {result : EStateM.Result ε σ α}
    (returned : returns check result = true) :
    ∃ value state, result = .ok value state ∧ check value state = true := by
  cases result with
  | ok value state => exact ⟨value, state, rfl, returned⟩
  | error thrown state => cases returned

/-- Every value the function returns has the property. -/
def Yields (property : α → Prop) (action : EStateM ε σ α) : Prop :=
  ∀ (start finish : σ) (value : α), action start = .ok value finish → property value

theorem Yields.pure {property : α → Prop} {value : α} (holds : property value) :
    Yields property (pure value : EStateM ε σ α) := by
  intro start finish other ran
  cases ran
  exact holds

theorem Yields.throw {property : α → Prop} (thrown : ε) :
    Yields property (throw thrown : EStateM ε σ α) := by
  intro start finish value ran
  cases ran

theorem Yields.bind {property : β → Prop} {first : EStateM ε σ α} {next : α → EStateM ε σ β}
    (yields : ∀ value, Yields property (next value)) : Yields property (first >>= next) := by
  intro start finish value ran
  obtain ⟨middle, state, _, ran⟩ := bind_eq_ok.mp ran
  exact yields middle _ _ _ ran

/-! ## Relations between the ends of a run -/

/-- The state a run ends in. -/
def finalState : EStateM.Result ε σ α → σ
  | .ok _ state => state
  | .error _ state => state

/-- Whether it returns or throws, the run from `start` ends in a state with the property. -/
def Ends (property : σ → Prop) (start : σ) (action : EStateM ε σ α) : Prop :=
  property (finalState (action start))

theorem Ends.of_ok {property : σ → Prop} {start finish : σ} {action : EStateM ε σ α} {value : α}
    (ends : Ends property start action) (ran : action start = .ok value finish) :
    property finish := by
  rw [Ends, ran] at ends
  exact ends

theorem Ends.of_error {property : σ → Prop} {start finish : σ} {action : EStateM ε σ α} {thrown : ε}
    (ends : Ends property start action) (ran : action start = .error thrown finish) :
    property finish := by
  rw [Ends, ran] at ends
  exact ends

/-- A sequence ends well when its first part does where it throws, and its second part
does from every state in which the first part returns. -/
theorem Ends.bind {property : σ → Prop} {start : σ} {first : EStateM ε σ α}
    {next : α → EStateM ε σ β}
    (throws : ∀ thrown state, first start = .error thrown state → property state)
    (returns : ∀ middle state, first start = .ok middle state → Ends property state (next middle)) :
    Ends property start (first >>= next) := by
  cases ran : first start with
  | ok middle state =>
      rw [Ends, bind_of_ok ran]
      exact returns middle state ran
  | error thrown state =>
      rw [Ends, show (first >>= next) start = .error thrown state from
        bind_eq_error.mpr (.inl ran)]
      exact throws thrown state ran

theorem ends_get {property : σ → Prop} {start : σ} {next : σ → EStateM ε σ β} :
    Ends property start (get >>= next) ↔ Ends property start (next start) := Iff.rfl

/-- Every run of the function relates the state it starts in to the one it ends in. -/
def Moves (relation : σ → σ → Prop) (action : EStateM ε σ α) : Prop :=
  ∀ start, Ends (relation start) start action

variable {relation : σ → σ → Prop}

theorem Moves.mono {weaker : σ → σ → Prop} {action : EStateM ε σ α}
    (moves : Moves relation action)
    (implies : ∀ start finish, relation start finish → weaker start finish) :
    Moves weaker action :=
  fun start => implies start _ (moves start)

theorem Moves.modify {update : σ → σ} (related : ∀ state, relation state (update state)) :
    Moves relation (modify update : EStateM ε σ PUnit) := related

theorem Moves.modifyGet {update : σ → α × σ} (related : ∀ state, relation state (update state).2) :
    Moves relation (modifyGet update : EStateM ε σ α) := related

section Reflexive

variable [Std.Refl relation]

theorem Moves.pure (value : α) : Moves relation (pure value : EStateM ε σ α) :=
  fun start => refl_of relation start

theorem Moves.throw (thrown : ε) : Moves relation (throw thrown : EStateM ε σ α) :=
  fun start => refl_of relation start

theorem Moves.get : Moves relation (get : EStateM ε σ σ) := fun start => refl_of relation start

end Reflexive

section Transitive

variable [IsTrans σ relation]

/-- The rest of a run that has already moved from `start` to `state`. -/
theorem Ends.after {start state : σ} {action : EStateM ε σ α} (moved : relation start state)
    (ends : Ends (relation state) state action) : Ends (relation start) state action :=
  trans_of relation moved ends

theorem Ends.seq {start : σ} {first : EStateM ε σ α} {next : α → EStateM ε σ β}
    (before : Ends (relation start) start first)
    (after : ∀ middle state, first start = .ok middle state →
      Ends (relation state) state (next middle)) :
    Ends (relation start) start (first >>= next) :=
  .bind (fun _ _ ran => before.of_error ran) fun middle state ran =>
    (after middle state ran).after (before.of_ok ran)

theorem Ends.step {start state : σ} {first : EStateM ε σ α} {next : α → EStateM ε σ β}
    {middle : α} (ran : first start = .ok middle state) (moved : relation start state)
    (after : Ends (relation state) state (next middle)) :
    Ends (relation start) start (first >>= next) := by
  rw [Ends, bind_of_ok ran]
  exact trans_of relation moved after

theorem Moves.bind {first : EStateM ε σ α} {next : α → EStateM ε σ β}
    (before : Moves relation first) (after : ∀ middle, Moves relation (next middle)) :
    Moves relation (first >>= next) :=
  fun start => (before start).seq fun middle state _ => after middle state

end Transitive

end Library
