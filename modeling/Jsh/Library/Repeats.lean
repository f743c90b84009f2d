import Mathlib.Data.List.Perm.Basic

/-! Lists in which each item of another list stands a given number of times. -/

set_option autoImplicit false

namespace Library

variable {α β : Type}

/-- The key of each item, as often as `times` says. -/
def repeats (key : α → β) (times : α → Nat) (items : List α) : List β :=
  items.flatMap fun item => List.replicate (times item) (key item)

variable {key : α → β} {times times' : α → Nat} {items : List α}

@[simp] theorem repeats_nil : repeats key times [] = [] := rfl

@[simp] theorem repeats_cons (item : α) (items : List α) :
    repeats key times (item :: items) =
      List.replicate (times item) (key item) ++ repeats key times items := rfl

theorem repeats_congr (same : ∀ item ∈ items, times item = times' item) :
    repeats key times items = repeats key times' items :=
  List.flatMap_congr fun item member => by rw [same item member]

theorem mem_repeats {value : β} (member : value ∈ repeats key times items) :
    ∃ item ∈ items, value = key item := by
  obtain ⟨item, inside, copy⟩ := List.mem_flatMap.mp member
  exact ⟨item, inside, List.eq_of_mem_replicate copy⟩

theorem map_filter_eq_repeats (selected : α → Bool) (items : List α) :
    (items.filter selected).map key = repeats key (fun item => (selected item).toNat) items := by
  induction items with
  | nil => rfl
  | cons item items ih => cases chosen : selected item <;> simp [chosen, ih]

/-- Two lists of the same items together. -/
theorem repeats_append_perm (items : List α) :
    (repeats key times items ++ repeats key times' items).Perm
      (repeats key (fun item => times item + times' item) items) := by
  have together := List.flatMap_append_perm items
    (fun item => List.replicate (times item) (key item))
    fun item => List.replicate (times' item) (key item)
  refine together.trans (.of_eq (List.flatMap_congr fun item _ => ?_))
  rw [List.replicate_append_replicate]

variable [DecidableEq β]

theorem count_repeats (distinct : (items.map key).Nodup) {item : α} (member : item ∈ items) :
    (repeats key times items).count (key item) = times item := by
  induction items with
  | nil => cases member
  | cons first items ih =>
      obtain ⟨fresh, distinct⟩ := List.nodup_cons.mp distinct
      rw [repeats_cons, List.count_append, List.count_replicate]
      cases List.mem_cons.mp member with
      | inl same =>
          subst same
          have absent : key item ∉ repeats key times items := by
            intro inside
            obtain ⟨other, inside, same⟩ := mem_repeats inside
            exact fresh (List.mem_map.mpr ⟨other, inside, same.symm⟩)
          rw [List.count_eq_zero.mpr absent]
          simp
      | inr later =>
          have apart : key first ≠ key item := by
            intro same
            exact fresh (List.mem_map.mpr ⟨item, later, same.symm⟩)
          rw [ih distinct later]
          simp [apart]

/-- Items with different keys stand equally often in two such lists exactly if these are
the same but for the order. -/
theorem repeats_perm_iff (distinct : (items.map key).Nodup) :
    (repeats key times items).Perm (repeats key times' items) ↔
      ∀ item ∈ items, times item = times' item := by
  constructor
  · intro same item member
    have counts := same.count_eq (key item)
    rwa [count_repeats distinct member, count_repeats distinct member] at counts
  · exact fun same => .of_eq (repeats_congr same)

end Library
