import Mathlib.Data.List.Nodup
import Mathlib.Data.List.Perm.Subperm
import Mathlib.Data.List.Range

/-! The first unused value of an injective enumeration: the allocation policy of
tables that hand out the lowest free name. -/

set_option autoImplicit false

namespace Library

variable {α : Type} [DecidableEq α]

/-- The least index whose value is not in `used`. Looking at one index more than
there are used values is enough. -/
def firstUnused (enumerate : Nat → α) (used : List α) : Nat :=
  ((List.range (used.length + 1)).find? fun index => decide (enumerate index ∉ used)).getD 0

theorem exists_unused {enumerate : Nat → α} (injective : Function.Injective enumerate)
    (used : List α) : ∃ index ∈ List.range (used.length + 1), enumerate index ∉ used := by
  by_contra covered
  have covered : ∀ index ∈ List.range (used.length + 1), enumerate index ∈ used := by
    simpa using covered
  have distinct : ((List.range (used.length + 1)).map enumerate).Nodup :=
    List.nodup_range.map injective
  have included : (List.range (used.length + 1)).map enumerate ⊆ used := by
    intro value member
    obtain ⟨index, inRange, rfl⟩ := List.mem_map.mp member
    exact covered index inRange
  have bounded := (distinct.subperm included).length_le
  simp only [List.length_map, List.length_range] at bounded
  omega

theorem firstUnused_not_mem {enumerate : Nat → α} (injective : Function.Injective enumerate)
    (used : List α) : enumerate (firstUnused enumerate used) ∉ used := by
  obtain ⟨index, inRange, unused⟩ := exists_unused injective used
  unfold firstUnused
  cases found : (List.range (used.length + 1)).find? fun index =>
      decide (enumerate index ∉ used) with
  | none =>
      have missed := List.find?_eq_none.mp found index inRange
      exact absurd (by simpa using unused) missed
  | some least => simpa using List.find?_some found

end Library
