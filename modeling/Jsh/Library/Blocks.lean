import Mathlib.Data.List.Basic
import Mathlib.Tactic.Common

/-! Blocks of allocated memory: cells that have been written or not, the terminated
string a block starts with, and writes that stay inside the block. -/

set_option autoImplicit false

namespace Library

variable {α : Type}

inductive Cell (α : Type) where
  | unset
  | terminator
  | symbol (value : α)
  deriving DecidableEq, Repr

abbrev Block (α : Type) := List (Cell α)

namespace Block

def allocate (size : Nat) : Block α := List.replicate size .unset

/-- The string at the start of a block. Reading it runs into a cell that has not been
written, or over the end of the block, when there is none. -/
def text : Block α → Option (List α)
  | .symbol value :: block => (text block).map (value :: ·)
  | .terminator :: _ => some []
  | _ => none

/-- The cells a string takes. -/
def terminated (values : List α) : Block α := values.map .symbol ++ [.terminator]

/-- Copies cells into a block, if they stay inside it. -/
def write (block : Block α) (offset : Nat) (cells : Block α) : Option (Block α) :=
  if offset + cells.length ≤ block.length then
    some (block.take offset ++ cells ++ block.drop (offset + cells.length))
  else none

/-- The cells a copy from the block reads, if they lie inside it. -/
def slice (block : Block α) (offset count : Nat) : Option (Block α) :=
  if offset + count ≤ block.length then some ((block.drop offset).take count) else none

/-- Copies a string behind the string the block holds. -/
def append (block : Block α) (values : List α) : Option (Block α) := do
  let destination ← block.text
  block.write destination.length (terminated values)

/-- Copies a string to the start of a block, cut so that it takes `limit` cells at most. -/
def format (block : Block α) (limit : Nat) (values : List α) : Option (Block α) :=
  if limit = 0 then some block else block.write 0 (terminated (values.take (limit - 1)))

@[simp] theorem allocate_length (size : Nat) : (allocate size : Block α).length = size := by
  simp [allocate]

@[simp] theorem terminated_length (values : List α) :
    (terminated values).length = values.length + 1 := by
  simp [terminated]

theorem text_symbols (values : List α) (rest : Block α) :
    text (values.map .symbol ++ rest) = (text rest).map (values ++ ·) := by
  induction values with
  | nil => simp
  | cons value values ih =>
      simp only [List.map_cons, List.cons_append, text, ih, Option.map_map]
      rfl

@[simp] theorem text_terminated_append (values : List α) (rest : Block α) :
    text (terminated values ++ rest) = some values := by
  rw [terminated, List.append_assoc, text_symbols]
  simp [text]

theorem text_terminated (values : List α) : text (terminated values) = some values := by
  have padded := text_terminated_append values []
  rwa [List.append_nil] at padded

theorem terminated_inj {values values' : List α} :
    terminated values = terminated values' ↔ values = values' := by
  refine ⟨fun same => ?_, congrArg _⟩
  have read := congrArg text same
  rwa [text_terminated, text_terminated, Option.some_inj] at read

/-- A block without a terminator holds no string. -/
theorem text_symbols_none (values : List α) : text (values.map .symbol) = none := by
  have padded := text_symbols values []
  rw [List.append_nil] at padded
  rw [padded]
  rfl

theorem write_of_le {block cells : Block α} {offset : Nat}
    (fits : offset + cells.length ≤ block.length) :
    block.write offset cells =
      some (block.take offset ++ cells ++ block.drop (offset + cells.length)) := if_pos fits

theorem write_start {block cells : Block α} (fits : cells.length ≤ block.length) :
    block.write 0 cells = some (cells ++ block.drop cells.length) := by
  rw [write_of_le (by omega)]
  simp

/-- A write just after a part of the block. -/
theorem write_after (first cells rest : Block α) (fits : cells.length ≤ rest.length) :
    write (first ++ rest) first.length cells = some (first ++ cells ++ rest.drop cells.length) := by
  rw [write_of_le (by simp only [List.length_append]; omega), List.take_left,
    List.drop_length_add_append]

theorem terminated_symbol {values : List α} {index : Nat} {value : α} :
    (terminated values)[index]? = some (.symbol value) ↔ values[index]? = some value := by
  rw [terminated, List.getElem?_append]
  split
  · simp
  · next past =>
    rw [List.length_map, Nat.not_lt] at past
    rw [List.getElem?_eq_none past]
    cases index - (values.map Cell.symbol).length <;> simp

/-- A slice of a string is a block of its symbols. -/
theorem slice_terminated {values : List α} {offset count : Nat}
    (fits : offset + count ≤ values.length) :
    slice (terminated values) offset count =
      some (((values.drop offset).take count).map .symbol) := by
  rw [slice, if_pos (by simp only [terminated_length]; omega), terminated,
    List.drop_append_of_le_length (by simp only [List.length_map]; omega),
    List.take_append_of_le_length (by simp only [List.length_drop, List.length_map]; omega)]
  simp only [List.map_drop, List.map_take]

/-- A string that is written without its terminator, and then the terminator, fill the
block. -/
theorem write_terminated (values : List α) :
    ((allocate (values.length + 1)).write 0 (values.map .symbol) >>= fun block =>
      block.write values.length [.terminator]) = some (terminated values) := by
  have first := @write_start α (allocate (values.length + 1)) (values.map .symbol) (by simp)
  have second := write_after (values.map Cell.symbol) [.terminator]
    ((allocate (values.length + 1)).drop values.length) (by simp)
  rw [List.length_map] at first second
  rw [first, Option.bind_eq_bind, Option.bind_some, second]
  simp [terminated, allocate]

/-- The terminator of the string is the first cell overwritten. -/
theorem append_terminated (values : List α) (rest : Block α) (added : List α)
    (fits : added.length ≤ rest.length) :
    append (terminated values ++ rest) added =
      some (terminated (values ++ added) ++ rest.drop added.length) := by
  have shape : terminated values ++ rest = values.map .symbol ++ (.terminator :: rest) := by
    simp [terminated]
  have written := write_after (values.map .symbol) (terminated added) (.terminator :: rest)
    (by simpa using fits)
  rw [List.length_map] at written
  rw [append, text_terminated_append, Option.bind_eq_bind, Option.bind_some, shape, written]
  simp [terminated]

theorem format_of_take {block : Block α} {limit : Nat} {values kept : List α}
    (positive : 0 < limit) (cut : values.take (limit - 1) = kept)
    (fits : kept.length + 1 ≤ block.length) :
    block.format limit values = some (terminated kept ++ block.drop (kept.length + 1)) := by
  rw [format, if_neg (by omega), cut, write_start (by simpa using fits), terminated_length]

/-! ## Arrays of slots -/

/-- Stores the values one after another, each at its index. -/
def store (block : Block α) : List (Nat × α) → Option (Block α)
  | [] => some block
  | (index, value) :: later => do
      let block ← block.write index [.symbol value]
      store block later

/-- Storing at consecutive indices fills the block from the first of them on. -/
theorem store_zipIdx (first : Block α) (values : List α) :
    store (first ++ allocate values.length) (values.zipIdx first.length |>.map Prod.swap) =
      some (first ++ values.map .symbol) := by
  induction values generalizing first with
  | nil => simp [store, allocate]
  | cons value values ih =>
      have written := write_after first [.symbol value] (allocate (values.length + 1)) (by simp)
      have recursive := ih (first ++ [.symbol value])
      rw [List.length_append, List.length_singleton] at recursive
      simp only [List.zipIdx_cons, List.map_cons, Prod.swap_prod_mk, store, List.length_cons,
        written, Option.bind_eq_bind, Option.bind_some]
      simpa [allocate, List.replicate_succ] using recursive

end Block

end Library
