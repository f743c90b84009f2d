import Mathlib.Data.Finset.Basic
import Mathlib.Data.List.Nodup
import Jsh.DescriptorProperties

/-!
# Sets of integers

The arrays that `add_set` and `remove_set` work on, as sets of natural numbers. A slot
that holds no value is negative, and `add_set` takes the first one it meets.
-/

set_option autoImplicit false

namespace Jsh

/-! ## One call -/

/-- `add_set` fills the first free slot that stands before the value, or finds the value,
or finds no slot. -/
theorem addSet_cases (set : List Int) (value : Int) :
    (∃ front slot back, set = front ++ slot :: back ∧ slot < 0 ∧
        (∀ other ∈ front, 0 ≤ other ∧ other ≠ value) ∧
        addSet set value = (front ++ value :: back, 0)) ∨
      (∃ front back, set = front ++ value :: back ∧ 0 ≤ value ∧
        (∀ other ∈ front, 0 ≤ other ∧ other ≠ value) ∧ addSet set value = (set, -1)) ∨
      (∀ other ∈ set, 0 ≤ other ∧ other ≠ value) ∧ addSet set value = (set, -1) := by
  induction set with
  | nil => exact .inr (.inr ⟨by simp, rfl⟩)
  | cons slot rest ih =>
      by_cases free : slot < 0
      · refine .inl ⟨[], slot, rest, rfl, free, by simp, ?_⟩
        simp [addSet, free]
      · by_cases same : slot = value
        · refine .inr (.inl ⟨[], rest, by simp [same], by omega, by simp, ?_⟩)
          simp only [addSet, if_neg free, if_pos same]
        · have passed : 0 ≤ slot ∧ slot ≠ value := ⟨by omega, same⟩
          have next : addSet (slot :: rest) value =
              (slot :: (addSet rest value).1, (addSet rest value).2) := by
            simp only [addSet, if_neg free, if_neg same]
          rcases ih with ⟨front, hole, back, rfl, negative, before, ran⟩ |
            ⟨front, back, rfl, nonnegative, before, ran⟩ | ⟨others, ran⟩
          · refine .inl ⟨slot :: front, hole, back, rfl, negative, ?_, by rw [next, ran]; rfl⟩
            exact List.forall_mem_cons.mpr ⟨passed, before⟩
          · refine .inr (.inl ⟨slot :: front, back, rfl, nonnegative, ?_, by rw [next, ran]⟩)
            exact List.forall_mem_cons.mpr ⟨passed, before⟩
          · refine .inr (.inr ⟨?_, by rw [next, ran]⟩)
            exact List.forall_mem_cons.mpr ⟨passed, others⟩

/-- `remove_set` frees the first slot that holds the value. -/
theorem removeSet_cases (set : List Int) (value : Int) :
    (∃ front back, set = front ++ value :: back ∧ value ∉ front ∧
        removeSet set value = (front ++ -1 :: back, 0)) ∨
      value ∉ set ∧ removeSet set value = (set, -1) := by
  induction set with
  | nil => exact .inr ⟨by simp, rfl⟩
  | cons slot rest ih =>
      by_cases same : slot = value
      · exact .inl ⟨[], rest, by simp [same], by simp, by simp [removeSet, same]⟩
      · have next : removeSet (slot :: rest) value =
            (slot :: (removeSet rest value).1, (removeSet rest value).2) := by
          simp only [removeSet, if_neg same]
        rcases ih with ⟨front, back, rfl, fresh, ran⟩ | ⟨fresh, ran⟩
        · refine .inl ⟨slot :: front, back, rfl, ?_, by rw [next, ran]; rfl⟩
          exact List.not_mem_cons_of_ne_of_not_mem (Ne.symm same) fresh
        · refine .inr ⟨?_, by rw [next, ran]⟩
          exact List.not_mem_cons_of_ne_of_not_mem (Ne.symm same) fresh

@[simp] theorem contains_iff {set : List Int} {value : Int} :
    contains set value = true ↔ value ∈ set := by
  simp [contains]

/-! ## Calls in sequence -/

/-- A call with a non-negative value. -/
inductive SetCall where
  | add (value : Nat)
  | remove (value : Nat)
  deriving DecidableEq, Repr

def SetCall.run (set : List Int) : SetCall → List Int × Int
  | .add value => addSet set value
  | .remove value => removeSet set value

/-- The values added and not removed since, once a call has returned the status. -/
def SetCall.hold (held : Finset Nat) (status : Int) : SetCall → Finset Nat
  | .add value => if status = 0 then insert value held else held
  | .remove value => held.erase value

/-- The array represents the set. -/
structure Represents (set : List Int) (held : Finset Nat) : Prop where
  once : ∀ value : Nat, set.count (value : Int) ≤ 1
  contained : ∀ value : Nat, contains set value = true ↔ value ∈ held

/-- The status tells whether the call has changed the set. -/
def SetCall.Answers (set : List Int) (held : Finset Nat) (status : Int) : SetCall → Prop
  | .add value => status = 0 ↔ value ∉ held ∧ ∃ slot ∈ set, slot < 0
  | .remove value => status = 0 ↔ value ∈ held

/-- Whatever the calls, the array represents a set and they answer for it. -/
def KeepsSet (set : List Int) (held : Finset Nat) : List SetCall → Prop
  | [] => Represents set held
  | call :: later =>
      Represents set held ∧ call.Answers set held (call.run set).2 ∧
        KeepsSet (call.run set).1 (call.hold held (call.run set).2) later

/-- A free slot stands before the value. -/
def HoleBefore (set : List Int) (value : Int) : Prop :=
  ∃ front back, set = front ++ value :: back ∧ ∃ slot ∈ front, slot < 0

theorem holeBefore_cons {slot value : Int} {rest : List Int} :
    HoleBefore (slot :: rest) value ↔ slot < 0 ∧ value ∈ rest ∨ HoleBefore rest value := by
  constructor
  · rintro ⟨_ | ⟨first, front⟩, back, same, hole, inside, free⟩
    · cases inside
    · cases same
      cases inside with
      | head => exact .inl ⟨free, by simp⟩
      | tail _ later => exact .inr ⟨front, back, rfl, hole, later, free⟩
  · rintro (⟨free, member⟩ | ⟨front, back, rfl, hole, inside, free⟩)
    · obtain ⟨front, back, rfl⟩ := List.append_of_mem member
      exact ⟨slot :: front, back, rfl, slot, .head _, free⟩
    · exact ⟨slot :: front, back, rfl, hole, .tail _ inside, free⟩

instance decidableHoleBefore : ∀ (set : List Int) (value : Int), Decidable (HoleBefore set value)
  | [], _ => .isFalse fun ⟨_, _, same, _⟩ => absurd same (by simp)
  | _ :: rest, value =>
      have := decidableHoleBefore rest value
      decidable_of_iff _ holeBefore_cons.symm

/-- No value is added that stands after a free slot, so that `add_set` sees it. -/
def SetCall.Sees (set : List Int) : SetCall → Prop
  | .add value => ¬ HoleBefore set value
  | .remove _ => True

instance (set : List Int) (call : SetCall) : Decidable (call.Sees set) :=
  match call with
  | .add value => inferInstanceAs (Decidable (¬ HoleBefore set value))
  | .remove _ => .isTrue trivial

def EachSees (set : List Int) : List SetCall → Prop
  | [] => True
  | call :: later => call.Sees set ∧ EachSees (call.run set).1 later

instance decidableEachSees : ∀ (set : List Int) (calls : List SetCall),
    Decidable (EachSees set calls)
  | _, [] => .isTrue trivial
  | set, call :: later =>
      have := decidableEachSees (call.run set).1 later
      inferInstanceAs (Decidable (call.Sees set ∧ EachSees (call.run set).1 later))

theorem Represents.empty {set : List Int} (free : ∀ slot ∈ set, slot < 0) :
    Represents set ∅ := by
  have absent : ∀ value : Nat, (value : Int) ∉ set := by
    intro value member
    have negative := free value member
    omega
  constructor
  case once => exact fun value => (List.count_eq_zero.mpr (absent value)).le.trans (by decide)
  case contained => simp [absent]

/-- A free slot takes a value that does not stand in the array. -/
theorem Represents.insert {front back : List Int} {slot : Int} {held : Finset Nat} {value : Nat}
    (represents : Represents (front ++ slot :: back) held) (free : slot < 0)
    (fresh : value ∉ held) : Represents (front ++ (value : Int) :: back) (insert value held) := by
  have absent : (value : Int) ∉ front ++ slot :: back := fun member =>
    fresh ((represents.contained value).mp (contains_iff.mpr member))
  constructor
  case once =>
    intro other
    have before := represents.once other
    have vanishing := List.count_eq_zero.mpr absent
    have unequal : slot ≠ other := by omega
    simp only [List.count_append, List.count_cons, beq_iff_eq, unequal, if_false] at before vanishing ⊢
    by_cases same : value = other
    · subst same
      simp only [if_true]
      omega
    · have apart : (value : Int) ≠ other := by omega
      simp only [apart, if_false]
      omega
  case contained =>
    intro other
    have before := represents.contained other
    have unequal : (other : Int) ≠ slot := by omega
    rw [contains_iff] at before ⊢
    rw [Finset.mem_insert, ← before]
    simp only [List.mem_append, List.mem_cons, unequal, false_or, Int.natCast_inj]
    tauto

theorem Represents.erase {front back : List Int} {held : Finset Nat} {value : Nat}
    (represents : Represents (front ++ (value : Int) :: back) held) :
    Represents (front ++ -1 :: back) (held.erase value) := by
  have single := represents.once value
  simp only [List.count_append, List.count_cons_self] at single
  have fresh : (value : Int) ∉ front ∧ (value : Int) ∉ back :=
    ⟨List.count_eq_zero.mp (by omega), List.count_eq_zero.mp (by omega)⟩
  constructor
  case once =>
    intro other
    have before := represents.once other
    have unequal : (-1 : Int) ≠ other := by omega
    simp only [List.count_append, List.count_cons, beq_iff_eq, unequal, if_false] at before ⊢
    omega
  case contained =>
    intro other
    have before := represents.contained other
    have unequal : (other : Int) ≠ -1 := by omega
    rw [contains_iff] at before ⊢
    rw [Finset.mem_erase, ← before]
    simp only [List.mem_append, List.mem_cons, unequal, false_or, Int.natCast_inj]
    constructor
    · intro member
      refine ⟨?_, by tauto⟩
      rintro rfl
      tauto
    · intro ⟨apart, member⟩
      have unequal' : (other : Int) ≠ value := by omega
      tauto

/-! ## Steps and runs -/

theorem HoleBefore.mem {set : List Int} {value : Int} (hole : HoleBefore set value) :
    value ∈ set := by
  obtain ⟨front, back, rfl, _⟩ := hole
  simp

/-- `add_set` with a value that stands after a free slot stores it again. -/
theorem addSet_of_hole {set : List Int} {held : Finset Nat} {value : Nat}
    (represents : Represents set held) (hole : HoleBefore set value) :
    (addSet set value).2 = 0 ∧ value ∈ held := by
  have member := hole.mem
  refine ⟨?_, (represents.contained value).mp (contains_iff.mpr member)⟩
  rcases addSet_cases set value with ⟨_, _, _, _, _, _, ran⟩ | ⟨before, after, split, _, passed, _⟩ |
    ⟨others, _⟩
  · rw [ran]
  · obtain ⟨front, back, shape, slot, inside, negative⟩ := hole
    have single := represents.once value
    rw [split, List.count_append, List.count_cons_self] at single
    have apart : (value : Int) ∉ before ∧ (value : Int) ∉ after :=
      ⟨List.count_eq_zero.mp (by omega), List.count_eq_zero.mp (by omega)⟩
    obtain ⟨rfl, _, _⟩ :=
      (List.append_cons_inj_of_notMem apart.1 apart.2).mp (split.symm.trans shape)
    have nonnegative := (passed slot inside).1
    omega
  · exact absurd rfl (others value member).2

/-- A call that sees its value answers for the set and leaves the array representing it. -/
theorem SetCall.keeps {set : List Int} {held : Finset Nat} {call : SetCall}
    (represents : Represents set held) (sees : call.Sees set) :
    call.Answers set held (call.run set).2 ∧
      Represents (call.run set).1 (call.hold held (call.run set).2) := by
  have failed : ¬ (-1 : Int) = 0 := by decide
  cases call with
  | add value =>
      have contained := represents.contained value
      rw [contains_iff] at contained
      rcases addSet_cases set value with ⟨front, slot, back, rfl, free, passed, ran⟩ |
        ⟨front, back, rfl, _, _, ran⟩ | ⟨others, ran⟩
      · have fresh : value ∉ held := by
          intro member
          have inside := contained.mpr member
          rw [List.mem_append, List.mem_cons] at inside
          rcases inside with before | same | after
          · exact (passed value before).2 rfl
          · omega
          · obtain ⟨middle, last, rfl⟩ := List.append_of_mem after
            exact sees ⟨front ++ slot :: middle, last, by simp, slot, by simp, free⟩
        rw [SetCall.run, ran]
        refine ⟨⟨fun _ => ⟨fresh, slot, by simp, free⟩, fun _ => rfl⟩, ?_⟩
        exact represents.insert free fresh
      · have member := contained.mp (by simp)
        rw [SetCall.run, ran]
        exact ⟨⟨fun zero => absurd zero failed, fun both => absurd member both.1⟩, represents⟩
      · rw [SetCall.run, ran]
        refine ⟨⟨fun zero => absurd zero failed, fun both => ?_⟩, represents⟩
        obtain ⟨slot, inside, free⟩ := both.2
        have nonnegative := (others slot inside).1
        omega
  | remove value =>
      have contained := represents.contained value
      rw [contains_iff] at contained
      rcases removeSet_cases set value with ⟨front, back, rfl, _, ran⟩ | ⟨absent, ran⟩
      · rw [SetCall.run, ran]
        refine ⟨⟨fun _ => contained.mp (by simp), fun _ => rfl⟩, ?_⟩
        exact represents.erase
      · have fresh : value ∉ held := fun member => absent (contained.mpr member)
        rw [SetCall.run, ran, SetCall.hold, Finset.erase_eq_of_notMem fresh]
        exact ⟨⟨fun zero => absurd zero failed, fun member => absurd member fresh⟩, represents⟩

theorem SetCall.answers_iff {set : List Int} {held : Finset Nat} {call : SetCall}
    (represents : Represents set held) :
    call.Answers set held (call.run set).2 ↔ call.Sees set := by
  refine ⟨fun answers => ?_, fun sees => (SetCall.keeps represents sees).1⟩
  cases call with
  | add value =>
      intro hole
      obtain ⟨zero, member⟩ := addSet_of_hole represents hole
      exact (answers.mp zero).1 member
  | remove value => trivial

theorem Represents.keepsSet_iff (calls : List SetCall) : ∀ {set : List Int} {held : Finset Nat},
    Represents set held → (KeepsSet set held calls ↔ EachSees set calls) := by
  induction calls with
  | nil => exact fun represents => ⟨fun _ => trivial, fun _ => represents⟩
  | cons call later ih =>
      intro set held represents
      rw [KeepsSet, EachSees, SetCall.answers_iff represents]
      constructor
      · rintro ⟨_, sees, keeps⟩
        exact ⟨sees, (ih (SetCall.keeps represents sees).2).mp keeps⟩
      · rintro ⟨sees, rest⟩
        exact ⟨represents, sees, (ih (SetCall.keeps represents sees).2).mpr rest⟩

/-- From a set without values, a run of calls keeps it a set if and only if no value is
added that stands after a free slot. -/
theorem set_calls_keep_set_iff {set : List Int} (free : ∀ slot ∈ set, slot < 0)
    (calls : List SetCall) : KeepsSet set ∅ calls ↔ EachSees set calls :=
  (Represents.empty free).keepsSet_iff calls

theorem two_slots_keep_set :
    KeepsSet [-1, -1] ∅ [.add 1, .add 2, .add 2, .remove 2, .add 2, .remove 1, .add 3] :=
  (set_calls_keep_set_iff (by decide) _).mpr (by decide)

/-- After `remove_set` has freed the first slot, `add_set` stores the value of the second
one there again. -/
theorem value_added_twice :
    ¬ KeepsSet [-1, -1] ∅ [.add 1, .add 2, .remove 1, .add 2] := by
  rintro ⟨_, _, _, _, _, _, _, answers, _⟩
  exact (answers.mp (by decide)).1 (by decide)

/-! ## Closing the descriptors of an array -/

/-- The values stand at the front of the array, each once. -/
def Packed (set : List Int) : Prop :=
  ∃ front back, set = front ++ back ∧ front.Nodup ∧ (∀ slot ∈ front, 0 ≤ slot) ∧
    ∀ slot ∈ back, slot < 0

theorem addSet_append {front : List Int} (values : ∀ slot ∈ front, 0 ≤ slot) (back : List Int)
    (value : Int) :
    (addSet (front ++ back) value).1 =
      if value ∈ front then front ++ back else front ++ (addSet back value).1 := by
  induction front with
  | nil => simp
  | cons slot front ih =>
      obtain ⟨nonnegative, others⟩ := List.forall_mem_cons.mp values
      have following := ih others
      by_cases same : slot = value
      · simp [addSet, same, show ¬ value < 0 by omega]
      · have unequal : value ≠ slot := Ne.symm same
        simp only [List.cons_append, addSet, show ¬ slot < 0 by omega, same, if_false, following,
          List.mem_cons, unequal, false_or]
        split <;> rfl

theorem Packed.addSet {set : List Int} (packed : Packed set) (value : Int) :
    Packed (addSet set value).1 := by
  obtain ⟨front, back, rfl, distinct, values, free⟩ := packed
  rw [addSet_append values]
  by_cases present : value ∈ front
  · rw [if_pos present]
    exact ⟨front, back, rfl, distinct, values, free⟩
  · rw [if_neg present]
    cases back with
    | nil => exact ⟨front, [], rfl, distinct, values, free⟩
    | cons slot rest =>
        obtain ⟨negative, others⟩ := List.forall_mem_cons.mp free
        have filled : (Jsh.addSet (slot :: rest) value).1 = value :: rest := by
          simp [Jsh.addSet, negative]
        rw [filled]
        by_cases marker : value < 0
        · exact ⟨front, value :: rest, rfl, distinct, values,
            List.forall_mem_cons.mpr ⟨marker, others⟩⟩
        · refine ⟨front ++ [value], rest, by simp, ?_, ?_, others⟩
          · exact List.concat_eq_append ▸ distinct.concat present
          · intro slot member
            rcases List.mem_append.mp member with old | new
            · exact values slot old
            · rw [List.mem_singleton.mp new]
              omega

theorem packed_fillSet (size : Nat) (values : List Int) : Packed (fillSet size values) := by
  have start : Packed (List.replicate size (-1)) := by
    refine ⟨[], _, rfl, .nil, by simp, fun slot member => ?_⟩
    rw [List.eq_of_mem_replicate member]
    decide
  unfold fillSet
  generalize List.replicate size (-1) = set at start
  induction values generalizing set with
  | nil => exact start
  | cons value values ih => exact ih _ (start.addSet value)

/-- Each descriptor above 2 in the array is closed once, and nothing else is closed. -/
theorem descriptors_closed_once (fds : List Int) :
    (∀ kernel, closeUnusedFileDescriptorsFromArray kernel fds =
        (closeCalls fds).foldl Kernel.close kernel) ∧
      ∀ fd, (closeCalls fds).count fd = if fd ∈ fds ∧ 2 < fd then 1 else 0 := by
  refine ⟨fun kernel => rfl, fun fd => ?_⟩
  have member : fd ∈ closeCalls fds ↔ fd ∈ fds ∧ 2 < fd := by
    rw [closeCalls_eq, List.mem_filter, decide_eq_true_eq]
    refine and_congr_left fun above => ?_
    exact mem_fillSet (Nat.le_refl _) (by omega)
  have distinct : (closeCalls fds).Nodup := by
    obtain ⟨front, back, shape, distinct, _, free⟩ := packed_fillSet fds.length fds
    have none : back.filter (· > 2) = [] := by
      refine List.filter_eq_nil_iff.mpr fun slot inside => ?_
      have negative := free slot inside
      simp only [decide_eq_true_eq]
      omega
    rw [closeCalls_eq, shape, List.filter_append, none, List.append_nil]
    exact distinct.filter _
  rw [distinct.count]
  exact if_congr member rfl rfl

end Jsh
