import Jsh.Command
import Jsh.Library.Blocks

/-!
# Strings in memory

The blocks `join_strings` and `split_string` allocate, filled by one write after
another. A write that leaves its block, or a `strlen` that runs over its end, has no
result.
-/

set_option autoImplicit false

namespace Jsh

open Library

/-! ## `join_strings` -/

/-- `total_size` -/
def totalSize (tokens : List CString) (separator : CString) : Nat :=
  1 + (tokens.length - 1) * separator.length + (tokens.map List.length).sum

/-- The loop that appends the tokens, from one index on. -/
def appendTokens (separator : CString) : List CString → Block Char → Option (Block Char)
  | [], joined => some joined
  | token :: tokens, joined => do
      let joined ← joined.append token
      let joined ← if tokens ≠ [] then joined.append separator else some joined
      appendTokens separator tokens joined

/-- `join_strings` with the block it returns. -/
def joinStringsInMemory (tokens : List CString) (separator : CString) : Option (Block Char) :=
  if tokens.length = 0 then some (Block.terminated [])
  else do
    let joined ← (Block.allocate (totalSize tokens separator)).write 0 [.terminator]
    appendTokens separator tokens joined

theorem totalSize_eq {tokens : List CString} (nonempty : tokens ≠ []) (separator : CString) :
    totalSize tokens separator = (joinStrings tokens separator).length + 1 := by
  induction tokens with
  | nil => exact absurd rfl nonempty
  | cons token tokens ih =>
      cases tokens with
      | nil => simp [totalSize, joinStrings, Nat.add_comm]
      | cons next tokens =>
          have recursive := ih (by simp)
          simp only [totalSize, List.length_cons, Nat.add_sub_cancel, List.map_cons, List.sum_cons,
            Nat.add_mul, Nat.one_mul, joinStrings, List.length_append] at recursive ⊢
          omega

theorem appendTokens_terminated (separator : CString) (tokens : List CString) (done : CString)
    (rest : Block Char) (fits : (joinStrings tokens separator).length ≤ rest.length) :
    appendTokens separator tokens (Block.terminated done ++ rest) =
      some (Block.terminated (done ++ joinStrings tokens separator) ++
        rest.drop (joinStrings tokens separator).length) := by
  induction tokens generalizing done rest with
  | nil => simp [appendTokens, joinStrings]
  | cons token tokens ih =>
      cases tokens with
      | nil =>
          have appended := Block.append_terminated done rest token (by simpa [joinStrings] using fits)
          simp [appendTokens, joinStrings, appended]
      | cons next tokens =>
          simp only [joinStrings, List.length_append] at fits
          have first := Block.append_terminated done rest token (by omega)
          have second := Block.append_terminated (done ++ token) (rest.drop token.length) separator
            (by simp only [List.length_drop]; omega)
          have third := ih (done ++ token ++ separator) ((rest.drop token.length).drop separator.length)
            (by simp only [List.length_drop]; omega)
          rw [appendTokens, first, Option.bind_eq_bind, Option.bind_some,
            if_pos (List.cons_ne_nil _ _), second]
          refine third.trans ?_
          simp [joinStrings, Nat.add_assoc]

/-- `join_strings` writes the joined string and its terminator, which fill the block. -/
theorem joinStringsInMemory_eq (tokens : List CString) (separator : CString) :
    joinStringsInMemory tokens separator =
      some (Block.terminated (joinStrings tokens separator)) := by
  cases tokens with
  | nil => rfl
  | cons token tokens =>
      have size := totalSize_eq (List.cons_ne_nil token tokens) separator
      have start : (Block.allocate (totalSize (token :: tokens) separator)).write 0 [.terminator] =
          some (Block.terminated [] ++
            (Block.allocate (joinStrings (token :: tokens) separator).length : Block Char)) := by
        rw [size, Block.write_start (by simp)]
        simp [Block.allocate, Block.terminated]
      rw [joinStringsInMemory, if_neg (by simp), start, Option.bind_eq_bind, Option.bind_some,
        appendTokens_terminated separator _ [] _ (by simp)]
      simp [Block.allocate]

/-! ## `split_string` -/

/-- The loop of `split_string`. The slot is the index the iterator has before `next_word`
moves it on: C leaves the order open, and gcc, the `CC` of the Makefile, takes the index
first. -/
def fillTokens (iterator : StringIterator) (tokens : Block CString) : Option (Block CString) :=
  if iterator.hasNextWord.1 then do
    let tokens ← tokens.write iterator.index [.symbol iterator.nextWord.1]
    fillTokens iterator.nextWord.2 tokens
  else some tokens
termination_by iterator.string.length
decreasing_by exact nextWord_string_length_lt (by assumption)

/-- `split_string` with the array it returns. -/
def splitStringInMemory (string : CString) (delimiter : Separator) :
    Option (Nat × Block CString) :=
  let iterator := newStringIterator string delimiter
  let numberOfTokens := getNumberOfWordsLeft iterator
  if numberOfTokens = 0 then some (0, [])
  else do
    let tokens ← fillTokens iterator (Block.allocate numberOfTokens)
    return (numberOfTokens, tokens)

/-- The loop of `split_string_keep_trace`, where gcc takes the index first as well. -/
def fillTokensKeepTrace (iterator : StringIterator) (tokens : Block CString) (last : Int) :
    Option (Block CString × Int) :=
  if iterator.hasNextWord.1 then do
    let tokens ← tokens.write iterator.index [.symbol iterator.nextWord.1]
    let found := (startsWith iterator.nextWord.2.string iterator.separator.text).toNat
    fillTokensKeepTrace iterator.nextWord.2 tokens (last + found)
  else some (tokens, last)
termination_by iterator.string.length
decreasing_by exact nextWord_string_length_lt (by assumption)

/-- `split_string_keep_trace` with the array it returns. -/
def splitStringKeepTraceInMemory (string : CString) (delimiter : Separator) :
    Option (Nat × Block CString × Int) :=
  let iterator := newStringIterator string delimiter
  let numberOfTokens := getNumberOfWordsLeft iterator
  if numberOfTokens = 0 then some (0, [], -1)
  else do
    let filled ← fillTokensKeepTrace iterator (Block.allocate numberOfTokens) (-1)
    return (numberOfTokens, filled)

theorem nextWord_index {iterator : StringIterator} (more : iterator.hasNextWord.1 = true) :
    iterator.nextWord.2.index = iterator.index + 1 := by
  rw [nextWord_eq (hasNextWord_iff.mp more)]

theorem fillTokensKeepTrace_eq (iterator : StringIterator) (tokens : Block CString) (last : Int) :
    fillTokensKeepTrace iterator tokens last =
      (tokens.store ((readWords iterator).zipIdx iterator.index |>.map Prod.swap)).map
        (·, last + (readWordsKeepTrace iterator).2) := by
  induction size : iterator.string.length using Nat.strongRecOn
    generalizing iterator tokens last with
  | ind size ih =>
    rw [fillTokensKeepTrace, readWords, readWordsKeepTrace]
    by_cases more : iterator.hasNextWord.1 = true
    · have shorter := size ▸ nextWord_string_length_lt more
      simp only [more, if_true, List.zipIdx_cons, List.map_cons, Prod.swap_prod_mk, Block.store]
      cases written : tokens.write iterator.index [.symbol iterator.nextWord.1] with
      | none => rfl
      | some tokens =>
          rw [Option.bind_eq_bind, Option.bind_some, ih _ shorter _ _ _ rfl, nextWord_index more]
          simp [Int.add_assoc]
    · simp [more, Block.store]

theorem fillTokens_eq (iterator : StringIterator) (tokens : Block CString) (last : Int) :
    fillTokens iterator tokens = (fillTokensKeepTrace iterator tokens last).map Prod.fst := by
  induction size : iterator.string.length using Nat.strongRecOn
    generalizing iterator tokens last with
  | ind size ih =>
    rw [fillTokens, fillTokensKeepTrace]
    by_cases more : iterator.hasNextWord.1 = true
    · have shorter := size ▸ nextWord_string_length_lt more
      simp only [more, if_true]
      cases written : tokens.write iterator.index [.symbol iterator.nextWord.1] with
      | none => rfl
      | some tokens => exact ih _ shorter _ _ _ rfl
    · simp [more]

private theorem store_words (separator : Separator) (string : CString) :
    (Block.allocate (getNumberOfWordsLeft (newStringIterator string separator))).store
        ((words separator string).zipIdx |>.map Prod.swap) =
      some ((words separator string).map .symbol) := by
  rw [getNumberOfWordsLeft, newStringIterator, countWords_eq_length_words]
  exact Block.store_zipIdx [] (words separator string)

/-- The array of `split_string_keep_trace` has a slot for each word and no other. -/
theorem splitStringKeepTraceInMemory_eq (string : CString) (delimiter : Separator) :
    splitStringKeepTraceInMemory string delimiter =
      some ((splitStringKeepTrace string delimiter).size,
        (splitStringKeepTrace string delimiter).tokens.map .symbol,
        (splitStringKeepTrace string delimiter).last) := by
  have stored := store_words delimiter string
  rw [splitStringKeepTraceInMemory, splitStringKeepTrace]
  by_cases none : getNumberOfWordsLeft (newStringIterator string delimiter) = 0
  · simp [none]
  · have filled := fillTokensKeepTrace_eq (newStringIterator string delimiter)
      (Block.allocate (getNumberOfWordsLeft (newStringIterator string delimiter))) (-1)
    have same := readWordsKeepTrace_fst (newStringIterator string delimiter)
    rw [words] at stored
    rw [newStringIterator] at none filled stored same ⊢
    simp [none, filled, stored, same]

theorem splitStringInMemory_eq (string : CString) (delimiter : Separator) :
    splitStringInMemory string delimiter =
      some ((splitString string delimiter).size,
        (splitString string delimiter).tokens.map .symbol) := by
  have stored := store_words delimiter string
  rw [splitStringInMemory, splitString]
  by_cases none : getNumberOfWordsLeft (newStringIterator string delimiter) = 0
  · simp [none]
  · have filled := fillTokensKeepTrace_eq (newStringIterator string delimiter)
      (Block.allocate (getNumberOfWordsLeft (newStringIterator string delimiter))) 0
    have same := fillTokens_eq (newStringIterator string delimiter)
      (Block.allocate (getNumberOfWordsLeft (newStringIterator string delimiter))) 0
    rw [words] at stored
    rw [newStringIterator] at none filled stored same ⊢
    simp [none, same, filled, stored]

/-- Both splitting loops write each slot of their array once, in order and never
beside it. The tokens are what is left of the string without its separators. -/
theorem split_fills_array (string : CString) (separator : Separator) :
    (∀ iterator : StringIterator, getNumberOfWordsLeft iterator = (readWords iterator).length ∧
        (iterator.hasNextWord.1 = true →
          iterator.nextWord.2.string.length < iterator.string.length)) ∧
      splitStringInMemory string separator =
        some ((words separator string).length, (words separator string).map .symbol) ∧
      splitStringKeepTraceInMemory string separator =
        some ((words separator string).length, (words separator string).map .symbol,
          (splitStringKeepTrace string separator).last) ∧
      (∀ token ∈ words separator string, token ≠ [] ∧ ¬ separator.text <:+: token) ∧
      ∃ leading gaps, gaps.length = (words separator string).length ∧
        (∀ gap ∈ gaps.dropLast, 1 ≤ gap) ∧
        string = (List.replicate leading separator.text).flatten ++
          interleave separator.text (words separator string) gaps := by
  have size := splitString_size string separator
  obtain ⟨traceTokens, traceSize⟩ := splitStringKeepTrace_tokens string separator
  rw [splitString_tokens] at size
  refine ⟨fun iterator => ⟨?_, nextWord_string_length_lt⟩, ?_, ?_,
    words_separator_free separator string, ?_⟩
  · rw [getNumberOfWordsLeft, countWords_eq_length_words, ← readWords_index]
  · rw [splitStringInMemory_eq, size, splitString_tokens]
  · rw [splitStringKeepTraceInMemory_eq, traceSize, traceTokens]
  · obtain ⟨leading, gaps, counted, separated, split, _⟩ := words_interleaved separator string
    exact ⟨leading, gaps, counted, separated, split⟩

/-- The separator `aa` overlaps itself: both loops take its first occurrence. -/
example : (splitStringInMemory "aaabaaaac".toList ⟨"aa".toList, by decide⟩).map Prod.snd =
    some [.symbol "ab".toList, .symbol "c".toList] := by
  rw [splitStringInMemory_eq, splitString_tokens]
  decide +kernel

/-! ## Joining tokens and splitting them again -/

/-- A contiguous range of tokens: the index of the first and how many there are. -/
def tokenRange (tokens : List CString) (range : Nat × Nat) : List CString :=
  (tokens.drop range.1).take range.2

/-- The tokens of a line after ranges of them have been joined and split again, each
range taken from the tokens of the level above. -/
def rejoined (line : CString) : List (Nat × Nat) → SplitString
  | [] => splitString line commandSeparator
  | range :: ranges =>
      rejoined (joinStrings (tokenRange (splitString line commandSeparator).tokens range)
        commandSeparator.text) ranges

theorem splitString_eq (string : CString) (delimiter : Separator) :
    splitString string delimiter =
      { size := (words delimiter string).length, tokens := words delimiter string } := by
  have tokens := splitString_tokens string delimiter
  have size := splitString_size string delimiter
  rw [tokens] at size
  rw [← size]
  conv_rhs => rw [← tokens]

theorem words_tokenRange (line : CString) (range : Nat × Nat) :
    words commandSeparator (joinStrings (tokenRange (words commandSeparator line) range)
        commandSeparator.text) =
      tokenRange (words commandSeparator line) range := by
  apply words_joinStrings commandSeparator_single
  intro token member
  exact words_clean commandSeparator_single line token
    (List.mem_of_mem_drop (List.mem_of_mem_take member))

theorem rejoined_eq (line : CString) (ranges : List (Nat × Nat)) :
    rejoined line ranges =
      { size := (ranges.foldl tokenRange (words commandSeparator line)).length
        tokens := ranges.foldl tokenRange (words commandSeparator line) } := by
  induction ranges generalizing line with
  | nil => exact splitString_eq line commandSeparator
  | cons range ranges ih =>
      rw [rejoined, ih, splitString_tokens, words_tokenRange]
      rfl

/-- Splitting undoes joining, in one step and at every depth of sub-commands, and the
joined string fills its block. -/
theorem join_then_split :
    (∀ tokens : List CString, tokens ≠ [] → (∀ token ∈ tokens, token ≠ [] ∧ ' ' ∉ token) →
        splitString (joinStrings tokens commandSeparator.text) commandSeparator =
          { size := tokens.length, tokens }) ∧
      (∀ (tokens : List CString) (separator : CString), tokens ≠ [] →
        joinStringsInMemory tokens separator =
            some (Block.terminated (joinStrings tokens separator)) ∧
          (Block.terminated (joinStrings tokens separator)).length =
            totalSize tokens separator) ∧
      ∀ (line : CString) (ranges : List (Nat × Nat)),
        rejoined line ranges =
          { size := (ranges.foldl tokenRange (words commandSeparator line)).length
            tokens := ranges.foldl tokenRange (words commandSeparator line) } := by
  refine ⟨fun tokens _ clean => ?_, fun tokens separator nonempty => ?_, rejoined_eq⟩
  · rw [splitString_eq, words_joinStrings commandSeparator_single clean]
  · rw [Block.terminated_length, totalSize_eq nonempty]
    exact ⟨joinStringsInMemory_eq tokens separator, rfl⟩

theorem cat_notes_rejoined :
    splitString (joinStrings ["cat".toList, "notes".toList] commandSeparator.text)
        commandSeparator =
      { size := 2, tokens := ["cat".toList, "notes".toList] } ∧
      joinStringsInMemory ["cat".toList, "notes".toList] commandSeparator.text =
        some (Block.terminated "cat notes".toList) :=
  ⟨join_then_split.1 _ (by decide) (by decide), (join_then_split.2.1 _ _ (by decide)).1⟩

end Jsh
