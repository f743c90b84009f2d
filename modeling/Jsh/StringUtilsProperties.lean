import Mathlib.Algebra.BigOperators.Group.List.Basic
import Mathlib.Algebra.GroupWithZero.Nat
import Jsh.StringUtils

/-! Splitting and joining: the counting scan agrees with the reading loop, the
tokens are separator-free, and joining on a one-byte separator is undone by
splitting on it. -/

set_option autoImplicit false

namespace Jsh

/-- The tokens of a string, without the iterator that reads them. -/
def words (separator : Separator) (string : CString) : List CString :=
  readWords (newStringIterator string separator)

theorem hasNextWord_iff {iterator : StringIterator} :
    iterator.hasNextWord.1 = true ↔
      skipSeparators iterator.separator iterator.string ≠ [] := by
  simp [StringIterator.hasNextWord, StringIterator.trimStart, List.length_pos_iff]

theorem nextWord_eq {iterator : StringIterator}
    (more : skipSeparators iterator.separator iterator.string ≠ []) :
    iterator.nextWord =
      ((skipSeparators iterator.separator iterator.string).take
          (currentWordSize iterator.separator
            (skipSeparators iterator.separator iterator.string)),
        { string := (skipSeparators iterator.separator iterator.string).drop
            (currentWordSize iterator.separator
              (skipSeparators iterator.separator iterator.string))
          separator := iterator.separator
          index := iterator.index + 1 }) := by
  have positive := List.length_pos_iff.mpr more
  simp only [StringIterator.nextWord, StringIterator.hasNextWord, trimStart_trimStart]
  simp [StringIterator.trimStart, positive]

private theorem readWords_eq (iterator : StringIterator) :
    readWords iterator =
      if skipSeparators iterator.separator iterator.string = [] then []
      else iterator.nextWord.1 :: readWords iterator.nextWord.2 := by
  rw [readWords]
  by_cases done : skipSeparators iterator.separator iterator.string = []
  · rw [if_neg (fun found => hasNextWord_iff.mp found done), if_pos done]
  · rw [if_pos (hasNextWord_iff.mpr done), if_neg done]

/-- The number of words already read plays no part in reading the next ones. -/
theorem readWords_index (separator : Separator) (string : CString) (index : Nat) :
    readWords { string, separator, index } = words separator string := by
  induction size : string.length using Nat.strongRecOn generalizing string index with
  | ind size ih =>
    rw [words, newStringIterator, readWords_eq, readWords_eq { string, separator, index := 0 }]
    by_cases done : skipSeparators separator string = []
    · simp [done]
    · have first : (StringIterator.mk string separator index).hasNextWord.1 = true :=
        hasNextWord_iff.mpr done
      have shorter := nextWord_string_length_lt first
      have fromZero : skipSeparators (StringIterator.mk string separator 0).separator
        (StringIterator.mk string separator 0).string ≠ [] := done
      rw [nextWord_eq done] at shorter
      rw [nextWord_eq done, nextWord_eq fromZero]
      simp only [done, if_false]
      rw [ih _ (size ▸ shorter) _ _ rfl, ih _ (size ▸ shorter) _ _ rfl]

/-- The reading loop as a recursion on the string. -/
theorem words_eq (separator : Separator) (string : CString) :
    words separator string =
      if skipSeparators separator string = [] then []
      else
        (skipSeparators separator string).take
            (currentWordSize separator (skipSeparators separator string)) ::
          words separator ((skipSeparators separator string).drop
            (currentWordSize separator (skipSeparators separator string))) := by
  rw [words, newStringIterator, readWords_eq]
  by_cases done : skipSeparators separator string = []
  · simp [done]
  · rw [nextWord_eq done, readWords_index]

theorem drop_currentWordSize (separator : Separator) (string : CString) :
    string.drop (currentWordSize separator string) = [] ∨
      startsWith (string.drop (currentWordSize separator string)) separator.text = true := by
  induction string with
  | nil => exact .inl (by simp)
  | cons char rest ih =>
      by_cases present : startsWith (char :: rest) separator.text = true
      · exact .inr (by simp [currentWordSize, present])
      · simpa [currentWordSize, present] using ih

theorem words_skipSeparators (separator : Separator) (string : CString) :
    words separator (skipSeparators separator string) = words separator string := by
  rw [words_eq separator (skipSeparators separator string), words_eq separator string,
    skipSeparators_of_not_startsWith (startsWith_skipSeparators separator string)]

/-- Skipping one separator at the front changes no token. -/
theorem words_drop_separator {separator : Separator} {string : CString}
    (present : startsWith string separator.text = true) :
    words separator (string.drop separator.text.length) = words separator string := by
  have nonempty : string ≠ [] := by
    rintro rfl
    rw [startsWith_nil] at present
    cases present
  rw [← words_skipSeparators separator string, skipSeparators, if_pos ⟨nonempty, present⟩,
    words_skipSeparators]

@[simp] theorem words_nil (separator : Separator) : words separator [] = [] := by
  rw [words_eq, skipSeparators_of_not_startsWith (startsWith_nil separator)]
  simp

/-! ## The counting scan -/

private theorem countWords_true (separator : Separator) (string : CString) :
    countWords separator true string =
      1 + countWords separator false (string.drop (currentWordSize separator string)) := by
  induction string with
  | nil => simp [countWords, currentWordSize]
  | cons char rest ih =>
      by_cases present : startsWith (char :: rest) separator.text = true
      · have size : currentWordSize separator (char :: rest) = 0 := by
          simp [currentWordSize, present]
        rw [size, List.drop_zero, countWords, countWords.eq_1 separator false (char :: rest)]
        simp [present]
      · rw [countWords]
        simpa [currentWordSize, present] using ih

private theorem countWords_skipSeparators (separator : Separator) (string : CString) :
    countWords separator false (skipSeparators separator string) =
      countWords separator false string := by
  fun_induction skipSeparators separator string with
  | case1 string present ih =>
      rw [ih, countWords.eq_1 separator false string]
      simp [present.1, present.2]
  | case2 => rfl

/-- `get_number_of_words_left` counts the words the reading loop produces, for
every separator, so each write `tokens[iterator->index]` is in bounds. -/
theorem countWords_eq_length_words (separator : Separator) (string : CString) :
    countWords separator false string = (words separator string).length := by
  induction size : string.length using Nat.strongRecOn generalizing string with
  | ind size ih =>
    rw [← countWords_skipSeparators, words_eq]
    set rest := skipSeparators separator string with restShape
    have absent : startsWith rest separator.text = false := startsWith_skipSeparators _ _
    by_cases done : rest = []
    · simp [done, countWords]
    · have shorter : rest.length ≤ string.length := skipSeparators_length_le separator string
      have positive := currentWordSize_pos done absent
      have nonempty := List.length_pos_iff.mpr done
      have step : countWords separator false rest = countWords separator true rest := by
        rw [countWords, countWords.eq_1 separator true rest]
        simp [done, absent]
      have recursive := ih (rest.drop (currentWordSize separator rest)).length
        (by simp only [List.length_drop]; omega) _ rfl
      rw [step, countWords_true, recursive]
      simp [done, Nat.add_comm]

theorem splitString_tokens (string : CString) (delimiter : Separator) :
    (splitString string delimiter).tokens = words delimiter string := by
  have counted := countWords_eq_length_words delimiter string
  by_cases none : countWords delimiter false string = 0
  · rw [none] at counted
    simp [splitString, getNumberOfWordsLeft, newStringIterator, none,
      List.length_eq_zero_iff.mp counted.symm]
  · simp [splitString, getNumberOfWordsLeft, newStringIterator, none, words]

theorem splitString_size (string : CString) (delimiter : Separator) :
    (splitString string delimiter).size = (splitString string delimiter).tokens.length := by
  rw [splitString_tokens, ← countWords_eq_length_words]
  by_cases none : countWords delimiter false string = 0 <;>
    simp [splitString, getNumberOfWordsLeft, newStringIterator, none]

theorem readWordsKeepTrace_fst (iterator : StringIterator) :
    (readWordsKeepTrace iterator).1 = readWords iterator := by
  fun_induction readWordsKeepTrace iterator with
  | case1 iterator more trace words last following ih =>
      rw [readWords, if_pos more, ← ih, following]
  | case2 iterator done => rw [readWords, if_neg done]

theorem splitStringKeepTrace_tokens (string : CString) (delimiter : Separator) :
    (splitStringKeepTrace string delimiter).tokens = words delimiter string ∧
      (splitStringKeepTrace string delimiter).size = (words delimiter string).length := by
  have tokens := splitString_tokens string delimiter
  have size := splitString_size string delimiter
  rw [tokens] at size
  unfold splitString at tokens size
  unfold splitStringKeepTrace
  simp only at tokens size ⊢
  split
  · next empty =>
    rw [if_pos empty] at tokens size
    exact ⟨tokens, size⟩
  · next nonempty =>
    rw [if_neg nonempty] at tokens size
    exact ⟨(readWordsKeepTrace_fst _).trans tokens, size⟩

/-! ## Lengths -/

/-- Room taken by a list of tokens when each is followed by one byte. -/
def tokensLength (tokens : List CString) : Nat := (tokens.map (·.length + 1)).sum

@[simp] theorem tokensLength_nil : tokensLength [] = 0 := rfl

@[simp] theorem tokensLength_cons (token : CString) (tokens : List CString) :
    tokensLength (token :: tokens) = token.length + 1 + tokensLength tokens := by
  simp [tokensLength]

theorem tokensLength_append (left right : List CString) :
    tokensLength (left ++ right) = tokensLength left + tokensLength right := by
  simp [tokensLength]

theorem tokensLength_drop_le (tokens : List CString) (count : Nat) :
    tokensLength (tokens.drop count) ≤ tokensLength tokens := by
  conv_rhs => rw [← List.take_append_drop count tokens, tokensLength_append]
  exact Nat.le_add_left _ _

/-- The tokens of a string fit in it: between two of them stands a separator. -/
theorem tokensLength_words_le (separator : Separator) (string : CString) :
    tokensLength (words separator string) ≤ string.length + 1 := by
  induction size : string.length using Nat.strongRecOn generalizing string with
  | ind size ih =>
    rw [words_eq]
    set rest := skipSeparators separator string with restShape
    by_cases done : rest = []
    · simp [done]
    · have shorter : rest.length ≤ string.length := skipSeparators_length_le separator string
      have bounded := currentWordSize_le_length separator rest
      have positive := currentWordSize_pos done (startsWith_skipSeparators separator string)
      have nonempty := List.length_pos_iff.mpr done
      have separated := separator.length_pos
      simp only [done, if_false, tokensLength_cons, List.length_take]
      rcases drop_currentWordSize separator rest with last | present
      · simp only [last, words_nil, tokensLength_nil]
        omega
      · rw [← words_drop_separator present]
        have fits := (startsWith_iff.mp present).length_le
        have recursive := ih
          ((rest.drop (currentWordSize separator rest)).drop separator.text.length).length
          (by simp only [List.length_drop]; omega) _ rfl
        simp only [List.length_drop] at recursive fits
        omega

/-- A joined list is one separator shorter than its tokens with a separator each. -/
theorem joinStrings_length {tokens : List CString} (nonempty : tokens ≠ []) (char : Char) :
    (joinStrings tokens [char]).length + 1 = tokensLength tokens := by
  induction tokens with
  | nil => exact absurd rfl nonempty
  | cons token tokens ih =>
      cases tokens with
      | nil => simp [joinStrings]
      | cons next tokens =>
          have recursive := ih (by simp)
          simp only [joinStrings, List.length_append, List.length_singleton, tokensLength_cons] at *
          omega

theorem words_of_isOnlyComposedOf {string : CString} {pattern : Separator}
    (blank : isOnlyComposedOf string pattern = true) : words pattern string = [] := by
  fun_induction isOnlyComposedOf string pattern with
  | case1 => exact words_nil pattern
  | case2 string _ present ih => rw [← words_drop_separator present, ih blank]
  | case3 => cases blank

/-! ## What lies between the tokens -/

/-- The tokens in order, each followed by its number of separators. -/
def interleave (separator : CString) (tokens : List CString) (gaps : List Nat) : CString :=
  (List.zipWith (fun token gap => token ++ (List.replicate gap separator).flatten) tokens
    gaps).flatten

theorem skipSeparators_skipped (separator : Separator) (string : CString) :
    ∃ skipped, string =
        (List.replicate skipped separator.text).flatten ++ skipSeparators separator string ∧
      (startsWith string separator.text = true → 1 ≤ skipped) := by
  fun_induction skipSeparators separator string with
  | case1 string present ih =>
      obtain ⟨skipped, shape, _⟩ := ih
      obtain ⟨rest, split⟩ := startsWith_iff.mp present.2
      refine ⟨skipped + 1, ?_, fun _ => by omega⟩
      rw [List.replicate_succ, List.flatten_cons, List.append_assoc, ← shape, ← split,
        List.drop_left]
  | case2 string absent =>
      refine ⟨0, rfl, fun present => absurd ⟨?_, present⟩ absent⟩
      intro empty
      rw [empty, startsWith_nil] at present
      cases present

/-- Between two tokens stands at least one separator, and nothing else is left out. -/
theorem words_interleaved (separator : Separator) (string : CString) :
    ∃ leading gaps, gaps.length = (words separator string).length ∧
      (∀ gap ∈ gaps.dropLast, 1 ≤ gap) ∧
      string = (List.replicate leading separator.text).flatten ++
        interleave separator.text (words separator string) gaps ∧
      (startsWith string separator.text = true → 1 ≤ leading) := by
  induction size : string.length using Nat.strongRecOn generalizing string with
  | ind size ih =>
    obtain ⟨skipped, shape, present⟩ := skipSeparators_skipped separator string
    rw [words_eq]
    set rest := skipSeparators separator string with restShape
    by_cases done : rest = []
    · refine ⟨skipped, [], by simp [done], by simp, ?_, present⟩
      simpa [done, interleave] using shape
    · have shorter : rest.length ≤ string.length := skipSeparators_length_le separator string
      have positive := currentWordSize_pos done (startsWith_skipSeparators separator string)
      have nonempty := List.length_pos_iff.mpr done
      set tail := rest.drop (currentWordSize separator rest) with tailShape
      obtain ⟨gap, gaps, counted, separated, split, atLeast⟩ := ih tail.length
        (by simp only [tailShape, List.length_drop]; omega) tail rfl
      refine ⟨skipped, gap :: gaps, by simp [done, counted], ?_, ?_, present⟩
      · cases gaps with
        | nil => simp
        | cons next gaps =>
            have more : tail ≠ [] := by
              intro empty
              simp [empty] at counted
            have starts := (drop_currentWordSize separator rest).resolve_left more
            intro other member
            rw [List.dropLast_cons_of_ne_nil (List.cons_ne_nil _ _), List.mem_cons] at member
            cases member with
            | inl same => exact same ▸ atLeast starts
            | inr later => exact separated other later
      · have joined : rest = rest.take (currentWordSize separator rest) ++
            ((List.replicate gap separator.text).flatten ++
              interleave separator.text (words separator tail) gaps) := by
          rw [← split, tailShape, List.take_append_drop]
        simp only [done, if_false]
        conv_lhs => rw [shape, joined]
        simp [interleave]

private theorem not_infix_take_currentWordSize (separator : Separator) (string : CString) :
    ¬ separator.text <:+: string.take (currentWordSize separator string) := by
  induction string with
  | nil => simpa using separator.nonempty
  | cons char rest ih =>
      by_cases present : startsWith (char :: rest) separator.text = true
      · simpa [currentWordSize, present] using separator.nonempty
      · intro inside
        simp only [currentWordSize, present, Bool.false_eq_true, if_false,
          List.take_succ_cons] at inside
        cases List.infix_cons_iff.mp inside with
        | inl first =>
            have whole : separator.text <+: char :: rest :=
              first.trans ((List.prefix_cons_inj char).mpr (List.take_prefix _ _))
            exact present (startsWith_iff.mpr whole)
        | inr later => exact ih later

/-- The tokens are non-empty and hold no separator. -/
theorem words_separator_free (separator : Separator) (string : CString) :
    ∀ token ∈ words separator string, token ≠ [] ∧ ¬ separator.text <:+: token := by
  induction size : string.length using Nat.strongRecOn generalizing string with
  | ind size ih =>
    rw [words_eq]
    set rest := skipSeparators separator string with restShape
    by_cases done : rest = []
    · simp [done]
    · have shorter : rest.length ≤ string.length := skipSeparators_length_le separator string
      have positive := currentWordSize_pos done (startsWith_skipSeparators separator string)
      have nonempty := List.length_pos_iff.mpr done
      intro token member
      simp only [done, if_false, List.mem_cons] at member
      cases member with
      | inl first =>
          rw [first]
          refine ⟨fun empty => ?_, not_infix_take_currentWordSize separator rest⟩
          have length := congrArg List.length empty
          simp only [List.length_take, List.length_nil] at length
          omega
      | inr later => exact ih _ (by simp only [List.length_drop]; omega) _ rfl token later

/-! ## One-byte separators -/

section SingleByte

variable {separator : Separator} {char : Char}

private theorem startsWith_single (single : separator.text = [char]) (first : Char)
    (rest : CString) : startsWith (first :: rest) separator.text = (char == first) := by
  simp [single, startsWith, List.isPrefixOf]

private theorem currentWordSize_append (single : separator.text = [char]) {word : CString}
    (absent : char ∉ word) {tail : CString} (stops : tail = [] ∨ ∃ rest, tail = char :: rest) :
    currentWordSize separator (word ++ tail) = word.length := by
  induction word with
  | nil =>
      rcases stops with rfl | ⟨rest, rfl⟩
      · rfl
      · simp [currentWordSize, startsWith_single single]
  | cons first word ih =>
      have different : (char == first) = false := by
        simpa using fun same : char = first => absent (by simp [same])
      simp only [List.cons_append, currentWordSize, startsWith_single single, different,
        Bool.false_eq_true, if_false, List.length_cons]
      rw [ih fun member => absent (.tail _ member)]

/-- A word at the front of a string is its first token. -/
theorem words_word_append (single : separator.text = [char]) {word : CString}
    (nonempty : word ≠ []) (absent : char ∉ word) {tail : CString}
    (stops : tail = [] ∨ ∃ rest, tail = char :: rest) :
    words separator (word ++ tail) = word :: words separator tail := by
  have kept : skipSeparators separator (word ++ tail) = word ++ tail := by
    apply skipSeparators_of_not_startsWith
    cases word with
    | nil => exact absurd rfl nonempty
    | cons first word =>
        rw [List.cons_append, startsWith_single single]
        simpa using fun same : char = first => absent (by simp [same])
  rw [words_eq, kept, currentWordSize_append single absent stops]
  simp [nonempty]

/-- Joining on a one-byte separator and splitting on it again gives the tokens back. -/
theorem words_joinStrings (single : separator.text = [char]) {tokens : List CString}
    (clean : ∀ token ∈ tokens, token ≠ [] ∧ char ∉ token) :
    words separator (joinStrings tokens separator.text) = tokens := by
  induction tokens with
  | nil => simp [joinStrings]
  | cons token tokens ih =>
      have first := clean token (by simp)
      have recursive := ih fun next member => clean next (by simp [member])
      cases tokens with
      | nil =>
          have alone : words separator (token ++ []) = token :: words separator [] :=
            words_word_append single first.1 first.2 (.inl rfl)
          simpa [joinStrings] using alone
      | cons next tokens =>
          rw [joinStrings, List.append_assoc]
          have stops : ∃ rest, separator.text ++ joinStrings (next :: tokens) separator.text =
              char :: rest :=
            ⟨joinStrings (next :: tokens) separator.text, by rw [single]; rfl⟩
          rw [words_word_append single first.1 first.2 (.inr stops)]
          have present : startsWith
              (separator.text ++ joinStrings (next :: tokens) separator.text) separator.text =
                true := startsWith_iff.mpr (List.prefix_append _ _)
          have skipped := words_drop_separator present
          rw [List.drop_left] at skipped
          rw [← skipped, recursive]

/-- The tokens are non-empty and free of the separator. -/
theorem words_clean (single : separator.text = [char]) (string : CString) :
    ∀ token ∈ words separator string, token ≠ [] ∧ char ∉ token := by
  intro token member
  obtain ⟨nonempty, free⟩ := words_separator_free separator string token member
  refine ⟨nonempty, fun inside => free ?_⟩
  obtain ⟨before, after, shape⟩ := List.append_of_mem inside
  exact ⟨before, after, by rw [single, shape, List.append_assoc]; rfl⟩

/-- The tokens are the maximal runs of bytes other than the separator. -/
theorem words_eq_splitOn (single : separator.text = [char]) (string : CString) :
    words separator string = (string.splitOn char).filter (· ≠ []) := by
  induction size : string.length using Nat.strongRecOn generalizing string with
  | ind size ih =>
    by_cases present : char ∈ string
    · obtain ⟨word, rest, rfl, absent⟩ := List.eq_append_cons_of_mem present
      have afterSeparator : words separator (char :: rest) = words separator rest := by
        have starts : startsWith (char :: rest) separator.text = true := by
          simp [startsWith_single single]
        have skipped := words_drop_separator starts
        rw [single] at skipped
        exact skipped.symm
      have shorter := ih rest.length (by simp only [← size, List.length_append, List.length_cons]; omega)
        rest rfl
      rw [List.splitOn_append_cons_self_of_not_mem absent]
      by_cases empty : word = []
      · simpa [empty, afterSeparator] using shorter
      · rw [words_word_append single empty absent (.inr ⟨rest, rfl⟩), afterSeparator, shorter]
        simp [empty]
    · rw [List.splitOn_eq_singleton present]
      by_cases empty : string = []
      · simp [empty]
      · have alone : words separator (string ++ []) = string :: words separator [] :=
          words_word_append single empty present (.inl rfl)
        simpa [empty] using alone

end SingleByte

end Jsh
