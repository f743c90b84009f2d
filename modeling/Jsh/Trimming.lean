import Mathlib.Data.List.DropRight
import Jsh.Library.Blocks
import Jsh.Words

/-!
# Trimming a string in memory

The loops of `trim_spaces` with the indices they read. The second one counts the spaces
at the end with an unsigned number and stops at a byte that is no space; there is none in
a string of spaces alone, and it leaves the string.
-/

set_option autoImplicit false

namespace Jsh

open Library

/-! ## Reading a string -/

/-- A string in memory. The size of its array, with the NUL, is a `size_t`. -/
structure StoredString where
  bytes : CString
  fits : bytes.length + 1 < 2 ^ 64

def StoredString.strlen (string : StoredString) : UInt64 := .ofNat string.bytes.length

/-- `str[index]`, which is not defined outside of the array. -/
def StoredString.read (string : StoredString) (index : UInt64) : Option (Cell Char) :=
  (Block.terminated string.bytes)[index.toNat]?

@[simp] theorem StoredString.strlen_toNat (string : StoredString) :
    string.strlen.toNat = string.bytes.length := by
  have fits := string.fits
  exact UInt64.toNat_ofNat_of_lt' (by simp only [UInt64.size]; omega)

theorem StoredString.read_symbol {string : StoredString} {index : UInt64} {char : Char}
    (read : string.read index = some (.symbol char)) : index.toNat < string.bytes.length :=
  (List.getElem?_eq_some_iff.mp (Block.terminated_symbol.mp read)).1

/-- A position counted from the end with unsigned numbers. -/
theorem StoredString.toNat_from_end {string : StoredString} {count : UInt64}
    (inside : (string.strlen - 1 - count).toNat < string.bytes.length) :
    count.toNat < string.bytes.length := by
  have bound := count.toNat_lt
  have fits := string.fits
  rw [UInt64.toNat_sub, UInt64.toNat_sub, strlen_toNat] at inside
  simp only [UInt64.toNat_one] at inside
  omega

theorem toNat_succ {count : UInt64} {bound : Nat} (below : count.toNat < bound)
    (fits : bound < 2 ^ 64) : (count + 1).toNat = count.toNat + 1 := by
  rw [UInt64.toNat_add, UInt64.toNat_one]
  omega

/-! ## `trim_spaces` -/

/-- The loop that counts `trim_start_len`. -/
def trimStartLength (string : StoredString) (count : UInt64) : Option UInt64 :=
  match read : string.read count with
  | none => none
  | some cell =>
      if space : cell = .symbol ' ' then trimStartLength string (count + 1) else some count
termination_by string.bytes.length - count.toNat
decreasing_by
  subst space
  have inside := StoredString.read_symbol read
  have next := toNat_succ inside (Nat.lt_of_succ_lt string.fits)
  omega

/-- The loop that counts `trim_end_len`. -/
def trimEndLength (string : StoredString) (count : UInt64) : Option UInt64 :=
  match read : string.read (string.strlen - 1 - count) with
  | none => none
  | some cell =>
      if space : cell = .symbol ' ' then trimEndLength string (count + 1) else some count
termination_by string.bytes.length - count.toNat
decreasing_by
  subst space
  have inside := StoredString.toNat_from_end (StoredString.read_symbol read)
  have next := toNat_succ inside (Nat.lt_of_succ_lt string.fits)
  omega

/-- `trim_spaces` with the block it returns, when it reads nothing outside of the string. -/
def trimSpacesInMemory (string : StoredString) : Option (Block Char) :=
  if string.strlen = 0 then (Block.allocate 1).write 0 [.terminator]
  else do
    let trimStartLen ← trimStartLength string 0
    let trimEndLen ← trimEndLength string 0
    if trimStartLen = 0 ∧ trimEndLen = 0 then
      (Block.allocate (string.strlen + 1).toNat).write 0 (Block.terminated string.bytes)
    else if trimStartLen + trimEndLen ≥ string.strlen then
      (Block.allocate 1).write 0 [.terminator]
    else
      let newLen := string.strlen - trimStartLen - trimEndLen
      let copied ← (Block.terminated string.bytes).slice trimStartLen.toNat newLen.toNat
      let trimmed ← (Block.allocate (newLen + 1).toNat).write 0 copied
      trimmed.write newLen.toNat [.terminator]

/-! ## The loops -/

theorem leadingSpaces_drop_space {string : CString} {index : Nat}
    (space : string[index]? = some ' ') :
    leadingSpaces (string.drop index) = leadingSpaces (string.drop (index + 1)) + 1 := by
  obtain ⟨inside, same⟩ := List.getElem?_eq_some_iff.mp space
  rw [List.drop_eq_getElem_cons inside, same, leadingSpaces, if_pos rfl]

theorem leadingSpaces_drop_other {string : CString} {index : Nat}
    (other : string[index]? ≠ some ' ') : leadingSpaces (string.drop index) = 0 := by
  cases shape : string.drop index with
  | nil => rfl
  | cons char rest =>
      have first : string[index]? = some char := by rw [← List.head?_drop, shape, List.head?_cons]
      have different : char ≠ ' ' := fun same => other (same ▸ first)
      rw [leadingSpaces, if_neg different]

theorem StoredString.read_inside {string : StoredString} {index : UInt64}
    (inside : index.toNat ≤ string.bytes.length) : string.read index ≠ none := by
  rw [StoredString.read, ne_eq, List.getElem?_eq_none_iff, Block.terminated_length]
  omega

theorem StoredString.symbol_iff {string : StoredString} {index : UInt64} {char : Char} :
    string.read index = some (.symbol char) ↔ string.bytes[index.toNat]? = some char :=
  Block.terminated_symbol

theorem trimStartLength_eq (string : StoredString) (count : UInt64)
    (inside : count.toNat ≤ string.bytes.length) :
    ∃ total, trimStartLength string count = some total ∧
      total.toNat = count.toNat + leadingSpaces (string.bytes.drop count.toNat) := by
  fun_induction trimStartLength string count with
  | case1 count read => exact absurd read (StoredString.read_inside inside)
  | case2 count read ih =>
      have below := StoredString.read_symbol read
      have next := toNat_succ below (Nat.lt_of_succ_lt string.fits)
      obtain ⟨total, ran, length⟩ := ih (next ▸ below)
      refine ⟨total, ran, ?_⟩
      rw [length, next, leadingSpaces_drop_space (StoredString.symbol_iff.mp read)]
      omega
  | case3 count cell read other =>
      refine ⟨count, rfl, ?_⟩
      rw [leadingSpaces_drop_other, Nat.add_zero]
      intro space
      rw [StoredString.symbol_iff.mpr space] at read
      exact other (Option.some.inj read).symm

/-- The position at the end that `count` spaces precede, or one outside of the string. -/
theorem StoredString.read_from_end {string : StoredString} {count : UInt64}
    (inside : count.toNat ≤ string.bytes.length) (nonempty : 0 < string.bytes.length) :
    string.read (string.strlen - 1 - count) =
      string.bytes.reverse[count.toNat]?.map .symbol := by
  have fits := string.fits
  have position : (string.strlen - 1 - count).toNat =
      if count.toNat < string.bytes.length then string.bytes.length - 1 - count.toNat
      else 2 ^ 64 - 1 := by
    rw [UInt64.toNat_sub, UInt64.toNat_sub, strlen_toNat, UInt64.toNat_one]
    split <;> omega
  by_cases last : count.toNat < string.bytes.length
  · rw [if_pos last] at position
    rw [List.getElem?_reverse last, ← position]
    have found : string.bytes[(string.strlen - 1 - count).toNat]? = some _ :=
      List.getElem?_eq_getElem (by omega)
    rw [found]
    exact StoredString.symbol_iff.mpr found
  · rw [if_neg last] at position
    rw [List.getElem?_eq_none (by simpa using last), StoredString.read, List.getElem?_eq_none]
    · rfl
    · rw [position, Block.terminated_length]
      omega

/-- The second loop leaves a string when it has only met spaces. -/
theorem trimEndLength_eq (string : StoredString) (nonempty : 0 < string.bytes.length)
    (count : UInt64) (inside : count.toNat ≤ string.bytes.length) :
    ((∀ char ∈ string.bytes.reverse.drop count.toNat, char = ' ') ∧
        trimEndLength string count = none) ∨
      (∃ char ∈ string.bytes.reverse.drop count.toNat, char ≠ ' ') ∧
        ∃ total, trimEndLength string count = some total ∧
          total.toNat = count.toNat + leadingSpaces (string.bytes.reverse.drop count.toNat) := by
  fun_induction trimEndLength string count with
  | case1 count read =>
      rw [StoredString.read_from_end inside nonempty, Option.map_eq_none_iff] at read
      refine .inl ⟨?_, rfl⟩
      rw [List.drop_eq_nil_of_le (List.getElem?_eq_none_iff.mp read)]
      simp
  | case2 count read ih =>
      have below := StoredString.toNat_from_end (StoredString.read_symbol read)
      have next := toNat_succ below (Nat.lt_of_succ_lt string.fits)
      rw [StoredString.read_from_end inside nonempty] at read
      obtain ⟨char, space, same⟩ := Option.map_eq_some_iff.mp read
      cases same
      obtain ⟨bound, first⟩ := List.getElem?_eq_some_iff.mp space
      have more := ih (next ▸ below)
      rw [leadingSpaces_drop_space space, List.drop_eq_getElem_cons bound, first]
      rw [next] at more
      rcases more with ⟨spaces, ran⟩ | ⟨⟨char, member, other⟩, total, ran, length⟩
      · exact .inl ⟨List.forall_mem_cons.mpr ⟨rfl, spaces⟩, ran⟩
      · refine .inr ⟨⟨char, .tail _ member, other⟩, total, ran, ?_⟩
        omega
  | case3 count cell read other =>
      rw [StoredString.read_from_end inside nonempty] at read
      obtain ⟨char, found, rfl⟩ := Option.map_eq_some_iff.mp read
      obtain ⟨bound, rfl⟩ := List.getElem?_eq_some_iff.mp found
      have different : string.bytes.reverse[count.toNat] ≠ ' ' := fun same => other (congrArg _ same)
      refine .inr ⟨⟨_, ?_, different⟩, count, rfl, ?_⟩
      · rw [List.drop_eq_getElem_cons bound]
        exact .head _
      · rw [leadingSpaces_drop_other, Nat.add_zero]
        rw [found]
        exact fun same => different (Option.some.inj same)

/-! ## The trimmed string -/

/-- The string without its leading and trailing spaces. -/
def trimmed (string : CString) : CString :=
  (string.dropWhile (· = ' ')).rdropWhile (· = ' ')

theorem drop_leadingSpaces (string : CString) :
    string.drop (leadingSpaces string) = string.dropWhile (· = ' ') := by
  induction string with
  | nil => rfl
  | cons char string ih =>
      by_cases space : char = ' '
      · simp [leadingSpaces, space, ih]
      · simp [leadingSpaces, space]

theorem leadingSpaces_append {left : CString} (other : ∃ char ∈ left, char ≠ ' ')
    (right : CString) :
    leadingSpaces (left ++ right) = leadingSpaces left ∧ leadingSpaces left < left.length := by
  induction left with
  | nil => simp at other
  | cons char left ih =>
      by_cases space : char = ' '
      · have later : ∃ char ∈ left, char ≠ ' ' := by simpa [space] using other
        obtain ⟨same, shorter⟩ := ih later
        simp only [List.cons_append, leadingSpaces, space, if_true, List.length_cons]
        omega
      · simp [leadingSpaces, space]

theorem trimmed_of_spaces {string : CString} (spaces : ∀ char ∈ string, char = ' ') :
    trimmed string = [] := by
  have none : string.dropWhile (· = ' ') = [] :=
    List.dropWhile_eq_nil_iff.mpr fun char member => decide_eq_true (spaces char member)
  rw [trimmed, none, List.rdropWhile_nil]

theorem trimmed_eq {string : CString} (other : ∃ char ∈ string, char ≠ ' ') :
    leadingSpaces string + trailingSpaces string < string.length ∧
      trimmed string = (string.drop (leadingSpaces string)).take
        (string.length - leadingSpaces string - trailingSpaces string) := by
  have split := leadingSpaces_split string
  set start := leadingSpaces string
  set rest := string.drop start with restShape
  have inside : ∃ char ∈ rest.reverse, char ≠ ' ' := by
    obtain ⟨char, member, different⟩ := other
    rw [split, List.mem_append, List.mem_replicate] at member
    refine ⟨char, List.mem_reverse.mpr ?_, different⟩
    tauto
  obtain ⟨same, shorter⟩ := leadingSpaces_append inside (List.replicate start ' ').reverse
  have ending : trailingSpaces string = leadingSpaces rest.reverse := by
    rw [trailingSpaces, split, List.reverse_append, same]
  have length : rest.length = string.length - start := List.length_drop
  rw [List.length_reverse] at shorter
  refine ⟨by omega, ?_⟩
  rw [trimmed, ← drop_leadingSpaces, ← restShape, List.rdropWhile, ← drop_leadingSpaces,
    List.reverse_drop, List.reverse_reverse, List.length_reverse, ending, length]

theorem leadingSpaces_of_spaces {string : CString} (spaces : ∀ char ∈ string, char = ' ') :
    leadingSpaces string = string.length := by
  induction string with
  | nil => rfl
  | cons char string ih =>
      obtain ⟨space, rest⟩ := List.forall_mem_cons.mp spaces
      rw [leadingSpaces, if_pos space, ih rest, List.length_cons]

/-- The function on lists of bytes that the parser uses. -/
theorem trimSpaces_eq_trimmed (string : CString) : trimSpaces string = trimmed string := by
  rw [trimSpaces]
  by_cases empty : string.length = 0
  · rw [if_pos empty, List.eq_nil_of_length_eq_zero empty]
    rfl
  · rw [if_neg empty]
    by_cases spaces : ∀ char ∈ string, char = ' '
    · have all := leadingSpaces_of_spaces spaces
      rw [if_neg (by omega), if_pos (by omega), trimmed_of_spaces spaces]
    · push Not at spaces
      obtain ⟨short, result⟩ := trimmed_eq spaces
      by_cases bare : leadingSpaces string = 0 ∧ trailingSpaces string = 0
      · rw [if_pos bare, result, bare.1, bare.2]
        simp
      · rw [if_neg bare, if_neg (by omega), result]

/-! ## The result -/

theorem trimSpacesInMemory_empty {string : StoredString} (empty : string.bytes = []) :
    trimSpacesInMemory string = some (Block.terminated []) := by
  have none : string.strlen = 0 := by
    rw [← UInt64.toNat_inj, StoredString.strlen_toNat, empty]
    rfl
  rw [trimSpacesInMemory, if_pos none]
  rfl

theorem StoredString.strlen_ne_zero {string : StoredString} (nonempty : 0 < string.bytes.length) :
    string.strlen ≠ 0 := by
  intro none
  rw [← UInt64.toNat_inj, StoredString.strlen_toNat, UInt64.toNat_zero] at none
  omega

/-- On a string of spaces the second loop reads the byte before the string. -/
theorem trimSpacesInMemory_of_spaces {string : StoredString} (nonempty : 0 < string.bytes.length)
    (spaces : ∀ char ∈ string.bytes, char = ' ') : trimSpacesInMemory string = none := by
  obtain ⟨start, started, _⟩ := trimStartLength_eq string 0 (Nat.zero_le _)
  have ended : trimEndLength string 0 = none := by
    rcases trimEndLength_eq string nonempty 0 (Nat.zero_le _) with
      ⟨_, ran⟩ | ⟨⟨char, member, other⟩, _⟩
    · exact ran
    · have inside := List.mem_reverse.mp (List.mem_of_mem_drop member)
      exact absurd (spaces char inside) other
  rw [trimSpacesInMemory, if_neg (StoredString.strlen_ne_zero nonempty), started, ended]
  rfl

theorem trimSpacesInMemory_of_other {string : StoredString}
    (other : ∃ char ∈ string.bytes, char ≠ ' ') :
    trimSpacesInMemory string = some (Block.terminated (trimmed string.bytes)) := by
  have fits := string.fits
  obtain ⟨char, member, different⟩ := id other
  have nonempty := List.length_pos_of_mem member
  obtain ⟨short, result⟩ := trimmed_eq other
  obtain ⟨start, started, startLength⟩ := trimStartLength_eq string 0 (Nat.zero_le _)
  obtain ⟨stop, ended, stopLength⟩ : ∃ stop, trimEndLength string 0 = some stop ∧
      stop.toNat = trailingSpaces string.bytes := by
    rcases trimEndLength_eq string nonempty 0 (Nat.zero_le _) with
      ⟨spaces, _⟩ | ⟨_, stop, ran, length⟩
    · exact absurd (spaces char (by simpa using member)) different
    · exact ⟨stop, ran, by simpa [trailingSpaces] using length⟩
  simp only [UInt64.toNat_zero, List.drop_zero, Nat.zero_add] at startLength
  rw [← startLength, ← stopLength] at short result
  have sum : (start + stop).toNat = start.toNat + stop.toNat := by
    rw [UInt64.toNat_add]
    omega
  have left : (string.strlen - start - stop).toNat =
      string.bytes.length - start.toNat - stop.toNat := by
    rw [UInt64.toNat_sub, UInt64.toNat_sub, StoredString.strlen_toNat]
    omega
  rw [trimSpacesInMemory, if_neg (StoredString.strlen_ne_zero nonempty), started, ended]
  simp only [Option.bind_eq_bind, Option.bind_some]
  by_cases bare : start = 0 ∧ stop = 0
  · have size : (string.strlen + 1).toNat = string.bytes.length + 1 := by
      rw [UInt64.toNat_add, StoredString.strlen_toNat, UInt64.toNat_one]
      omega
    rw [if_pos bare, size, result, bare.1, bare.2, Block.write_start (by simp)]
    simp [Block.allocate]
  · have below : ¬ start + stop ≥ string.strlen := by
      rw [ge_iff_le, UInt64.le_iff_toNat_le, sum, StoredString.strlen_toNat]
      omega
    have size : (string.strlen - start - stop + 1).toNat =
        string.bytes.length - start.toNat - stop.toNat + 1 := by
      rw [UInt64.toNat_add, left, UInt64.toNat_one]
      omega
    have length : (trimmed string.bytes).length =
        string.bytes.length - start.toNat - stop.toNat := by
      rw [result, List.length_take, List.length_drop]
      omega
    have written := Block.write_terminated (trimmed string.bytes)
    rw [if_neg bare, if_neg below, size, left, Block.slice_terminated (by omega), ← result,
      ← length]
    exact written

/-- `trim_spaces` returns the trimmed string, and reads nothing outside of it, unless the
string is made of spaces alone. -/
theorem trimSpaces_trims_iff (string : StoredString) :
    trimSpacesInMemory string = some (Block.terminated (trimmed string.bytes)) ↔
      string.bytes = [] ∨ ∃ char ∈ string.bytes, char ≠ ' ' := by
  constructor
  · intro returned
    by_contra blank
    obtain ⟨nonempty, spaces⟩ := not_or.mp blank
    push Not at spaces
    rw [trimSpacesInMemory_of_spaces (List.length_pos_iff.mpr nonempty) spaces] at returned
    cases returned
  · rintro (empty | other)
    · rw [trimSpacesInMemory_empty empty, empty]
      rfl
    · exact trimSpacesInMemory_of_other other

/-- Four spaces. -/
theorem spaces_leave_string :
    trimSpacesInMemory { bytes := "    ".toList, fits := by decide } = none ∧
      trimmed "    ".toList = [] :=
  ⟨trimSpacesInMemory_of_spaces (Nat.zero_lt_succ _) (by simp), rfl⟩

end Jsh
