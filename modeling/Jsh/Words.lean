import Jsh.Grammar

/-!
# Words

The words of a string and of its parts.
-/

set_option autoImplicit false

namespace Jsh

@[simp] theorem runs_nil : runs [] = [] := by decide

theorem runs_append_space (left right : CString) :
    runs (left ++ ' ' :: right) = runs left ++ runs right := by
  rw [runs, List.splitOn_append_cons_self, List.filter_append]
  rfl

@[simp] theorem runs_space (string : CString) : runs (' ' :: string) = runs string :=
  runs_append_space [] string

@[simp] theorem runs_append_singleton (string : CString) : runs (string ++ [' ']) = runs string := by
  rw [runs_append_space, runs_nil, List.append_nil]

@[simp] theorem runs_replicate_append (count : Nat) (string : CString) :
    runs (List.replicate count ' ' ++ string) = runs string := by
  induction count with
  | zero => rfl
  | succ count ih => rw [List.replicate_succ, List.cons_append, runs_space, ih]

@[simp] theorem runs_append_replicate (string : CString) (count : Nat) :
    runs (string ++ List.replicate count ' ') = runs string := by
  induction count with
  | zero => simp
  | succ count ih =>
      rw [List.replicate_succ', ← List.append_assoc, runs_append_singleton, ih]

/-- The first word of a string, and what stands around it. -/
theorem runs_eq_cons {string word : CString} {others : List CString}
    (first : runs string = word :: others) :
    ∃ count tail, string = List.replicate count ' ' ++ word ++ tail ∧ ' ' ∉ word ∧
      (tail = [] ∧ others = [] ∨ ∃ rest, tail = ' ' :: rest ∧ runs rest = others) := by
  have clean := words_clean commandSeparator_single string
  obtain ⟨count, shape, _⟩ := skipSeparators_skipped commandSeparator string
  rw [← words_commandSeparator] at first
  rw [first] at clean
  rw [words_eq] at first
  set rest := skipSeparators commandSeparator string
  by_cases done : rest = []
  · rw [if_pos done] at first
    cases first
  · rw [if_neg done, List.cons.injEq] at first
    obtain ⟨firstWord, later⟩ := first
    refine ⟨count, rest.drop (currentWordSize commandSeparator rest), ?_,
      (clean word (.head _)).2, ?_⟩
    · rw [← firstWord, List.append_assoc, List.take_append_drop]
      conv_lhs => rw [shape, commandSeparator_single]
      simp
    · rw [words_commandSeparator] at later
      cases drop_currentWordSize commandSeparator rest with
      | inl last =>
          rw [last, runs_nil] at later
          exact .inl ⟨last, later.symm⟩
      | inr present =>
          obtain ⟨tail, split⟩ := startsWith_iff.mp present
          have split : rest.drop (currentWordSize commandSeparator rest) = ' ' :: tail := split.symm
          rw [split, runs_space] at later
          exact .inr ⟨tail, split, later⟩

theorem runs_of_not_mem {word : CString} (nonempty : word ≠ []) (free : ' ' ∉ word) :
    runs word = [word] := by
  rw [runs, List.splitOn_eq_singleton free]
  simp [nonempty]

/-- A string can be cut where some of its words end and the others begin. -/
theorem runs_split {string : CString} {before after : List CString}
    (split : runs string = before ++ after) :
    ∃ left right, string = left ++ right ∧ runs left = before ∧
      (after = [] → right = []) ∧
      ∀ word others, after = word :: others → ∃ tail, right = word ++ tail := by
  induction before generalizing string with
  | nil =>
      cases after with
      | nil => exact ⟨string, [], by simp, split, fun _ => rfl, by simp⟩
      | cons word others =>
          obtain ⟨count, tail, shape, _, _⟩ := runs_eq_cons split
          refine ⟨List.replicate count ' ', word ++ tail, by simpa using shape, ?_, by simp, ?_⟩
          · simpa using runs_append_replicate [] count
          · intro word' others' same
            cases same
            exact ⟨tail, rfl⟩
  | cons word before ih =>
      obtain ⟨count, tail, shape, free, rest⟩ := runs_eq_cons split
      have nonempty : word ≠ [] := by
        have clean := words_clean commandSeparator_single string
        rw [words_commandSeparator, split] at clean
        exact (clean word (.head _)).1
      have alone : runs (List.replicate count ' ' ++ word) = [word] := by
        rw [runs_replicate_append, runs_of_not_mem nonempty free]
      cases rest with
      | inl last =>
          obtain ⟨empty, none⟩ := last
          obtain ⟨rfl, rfl⟩ := List.append_eq_nil_iff.mp none
          refine ⟨string, [], by simp, ?_, fun _ => rfl, by simp⟩
          rw [shape, empty, List.append_nil, alone]
      | inr more =>
          obtain ⟨rest, spaced, later⟩ := more
          obtain ⟨left, right, parts, own, last, next⟩ := ih later
          refine ⟨List.replicate count ' ' ++ word ++ ' ' :: left, right, ?_, ?_, last, next⟩
          · rw [shape, spaced, parts]
            simp
          · rw [runs_append_space, alone, own]
            rfl

/-- The letters of a string are those of its words. -/
theorem flatten_runs (string : CString) : (runs string).flatten = string.filter (· ≠ ' ') := by
  have pieces : (string.splitOn ' ').flatten = string.filter (· ≠ ' ') := by
    induction string with
    | nil => rfl
    | cons char string ih =>
        rw [List.splitOn_cons_eq_if_modifyHead]
        by_cases space : char = ' '
        · simpa [space] using ih
        · obtain ⟨piece, others, shape⟩ := List.exists_cons_of_ne_nil
            (List.splitOn_ne_nil ' ' string)
          rw [shape] at ih ⊢
          simpa [space] using ih
  rw [runs, ← pieces]
  exact List.flatten_filter_ne_nil

/-- Between two words stands a space. -/
theorem runs_length_le (string : CString) : (runs string).length ≤ string.count ' ' + 1 := by
  have pieces : (string.splitOn ' ').length = string.count ' ' + 1 := by
    induction string with
    | nil => rfl
    | cons char string ih =>
        rw [List.splitOn_cons_eq_if_modifyHead]
        by_cases space : char = ' ' <;> simp [space, ih]
  rw [← pieces]
  exact List.length_filter_le _ _

/-! ## Trimming -/

theorem leadingSpaces_split (string : CString) :
    string = List.replicate (leadingSpaces string) ' ' ++ string.drop (leadingSpaces string) := by
  induction string with
  | nil => rfl
  | cons char string ih =>
      by_cases space : char = ' '
      · simp only [leadingSpaces, space, if_true, List.replicate_succ, List.cons_append,
          List.drop_succ_cons]
        rw [← ih]
      · simp [leadingSpaces, space]

theorem trailingSpaces_split (string : CString) :
    string = string.take (string.length - trailingSpaces string) ++
      List.replicate (trailingSpaces string) ' ' := by
  have split := congrArg List.reverse (leadingSpaces_split string.reverse)
  rw [List.reverse_reverse, List.reverse_append, List.reverse_replicate, List.drop_reverse,
    List.reverse_reverse] at split
  exact split

/-- Trimming takes no word away. -/
theorem runs_trimSpaces (string : CString) : runs (trimSpaces string) = runs string := by
  have front := leadingSpaces_split string
  have back := trailingSpaces_split string
  set leading := leadingSpaces string
  set trailing := trailingSpaces string
  have blank : ∀ count, runs (List.replicate count ' ') = [] := fun count => by
    simpa using runs_append_replicate [] count
  have fits : trailing ≤ string.length := by
    have lengths := congrArg List.length back
    simp only [List.length_append, List.length_replicate] at lengths
    omega
  have ending : string.drop (string.length - trailing) = List.replicate trailing ' ' := by
    conv_lhs => rw [back]
    exact List.drop_left' (by simp)
  rw [trimSpaces]
  by_cases empty : string.length = 0
  · rw [if_pos empty, List.eq_nil_of_length_eq_zero empty]
  · rw [if_neg empty]
    by_cases bare : leading = 0 ∧ trailing = 0
    · rw [if_pos bare]
    · rw [if_neg bare]
      by_cases covered : leading + trailing ≥ string.length
      · have tail : string.drop leading = (List.replicate trailing ' ').drop
            (leading - (string.length - trailing)) := by
          rw [← ending, List.drop_drop]
          congr 1
          omega
        rw [if_pos covered, front, runs_replicate_append, tail, List.drop_replicate, blank, runs_nil]
      · have tail : (string.drop leading).drop (string.length - leading - trailing) =
            List.replicate trailing ' ' := by
          rw [← ending, List.drop_drop]
          congr 1
          omega
        have middle := List.take_append_drop (string.length - leading - trailing)
          (string.drop leading)
        rw [tail] at middle
        rw [if_neg covered]
        conv_rhs => rw [front, ← middle]
        rw [runs_replicate_append, runs_append_replicate]

end Jsh
