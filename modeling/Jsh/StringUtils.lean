import Mathlib.Data.List.Basic
import Mathlib.Tactic.Common

/-!
# String utilities

The functions of `string_utils.c`. A C string is the list of its bytes before
the terminating NUL; allocation is taken to succeed. Counts and lengths are
natural numbers: a line handed over by readline has a length within `int`.
-/

set_option autoImplicit false

namespace Jsh

/-- The bytes of a NUL-terminated string, without the NUL. -/
abbrev CString := List Char

/-- A separator accepted by `new_string_iterator`, which refuses the empty one. -/
structure Separator where
  text : CString
  nonempty : text ≠ []

theorem Separator.length_pos (separator : Separator) : 0 < separator.text.length :=
  List.length_pos_iff.mpr separator.nonempty

/-- `strncmp(string, start, strlen(start)) == 0`. -/
def startsWith (string start : CString) : Bool := start.isPrefixOf string

theorem startsWith_iff {string start : CString} :
    startsWith string start = true ↔ start <+: string := by
  simp [startsWith]

theorem startsWith_nil (separator : Separator) : startsWith [] separator.text = false := by
  cases shape : separator.text with
  | nil => exact absurd shape separator.nonempty
  | cons => rfl

/-- The rest of the string after every leading separator has been skipped. -/
def skipSeparators (separator : Separator) (string : CString) : CString :=
  if string ≠ [] ∧ startsWith string separator.text then
    skipSeparators separator (string.drop separator.text.length)
  else string
termination_by string.length
decreasing_by
  rename_i present
  have := List.length_pos_iff.mpr present.1
  have := separator.length_pos
  simp only [List.length_drop]
  omega

/-- `string_iterator`: the unread rest of the string, the separator, and the
number of words read so far. -/
structure StringIterator where
  string : CString
  separator : Separator
  index : Nat

def newStringIterator (string : CString) (separator : Separator) : StringIterator :=
  { string, separator, index := 0 }

/-- `trim_start`. The empty string starts with no separator, so the loop's test
needs no bound of its own. -/
def StringIterator.trimStart (iterator : StringIterator) : StringIterator :=
  { iterator with string := skipSeparators iterator.separator iterator.string }

/-- `has_next_word`, with the iterator it has trimmed. -/
def StringIterator.hasNextWord (iterator : StringIterator) : Bool × StringIterator :=
  let iterator := iterator.trimStart
  (decide (0 < iterator.string.length), iterator)

/-- The loop of `next_word` that finds `current_word_size`. -/
def currentWordSize (separator : Separator) : CString → Nat
  | [] => 0
  | char :: rest =>
      if startsWith (char :: rest) separator.text then 0
      else currentWordSize separator rest + 1

/-- `next_word`: the next word and the iterator moved just after it. -/
def StringIterator.nextWord (iterator : StringIterator) : CString × StringIterator :=
  let (more, iterator) := iterator.trimStart.hasNextWord
  if more then
    let size := currentWordSize iterator.separator iterator.string
    (iterator.string.take size,
      { iterator with string := iterator.string.drop size, index := iterator.index + 1 })
  else ([], iterator)

/-- The loop of `get_number_of_words_left` from one position of the string on.
`word` says whether the position is inside a word; the two index jumps over a
separator are the `drop`. -/
def countWords (separator : Separator) (word : Bool) (string : CString) : Nat :=
  if string = [] then word.toNat
  else if startsWith string separator.text then
    word.toNat + countWords separator false (string.drop separator.text.length)
  else countWords separator true string.tail
termination_by string.length
decreasing_by
  · rename_i nonempty _
    have := List.length_pos_iff.mpr nonempty
    have := separator.length_pos
    simp only [List.length_drop]
    omega
  · rename_i nonempty _
    have := List.length_pos_iff.mpr nonempty
    simp only [List.length_tail]
    omega

def getNumberOfWordsLeft (iterator : StringIterator) : Nat :=
  countWords iterator.separator false iterator.string

theorem skipSeparators_length_le (separator : Separator) (string : CString) :
    (skipSeparators separator string).length ≤ string.length := by
  fun_induction skipSeparators separator string with
  | case1 string present ih =>
      simp only [List.length_drop] at ih
      omega
  | case2 => exact Nat.le_refl _

/-- Nothing is left to skip after skipping. -/
theorem startsWith_skipSeparators (separator : Separator) (string : CString) :
    startsWith (skipSeparators separator string) separator.text = false := by
  fun_induction skipSeparators separator string with
  | case1 string present ih => exact ih
  | case2 string absent =>
      by_cases empty : string = []
      · rw [empty]; exact startsWith_nil separator
      · simpa [empty] using absent

theorem skipSeparators_of_not_startsWith {separator : Separator} {string : CString}
    (absent : startsWith string separator.text = false) :
    skipSeparators separator string = string := by
  rw [skipSeparators, if_neg (by simp [absent])]

theorem currentWordSize_pos {separator : Separator} {string : CString}
    (nonempty : string ≠ []) (absent : startsWith string separator.text = false) :
    0 < currentWordSize separator string := by
  cases string with
  | nil => exact absurd rfl nonempty
  | cons char rest => simp [currentWordSize, absent]

theorem currentWordSize_le_length (separator : Separator) (string : CString) :
    currentWordSize separator string ≤ string.length := by
  induction string with
  | nil => simp [currentWordSize]
  | cons char rest ih =>
      simp only [currentWordSize, List.length_cons]
      split <;> omega

@[simp] theorem trimStart_trimStart (iterator : StringIterator) :
    iterator.trimStart.trimStart = iterator.trimStart := by
  simp [StringIterator.trimStart,
    skipSeparators_of_not_startsWith (startsWith_skipSeparators _ _)]

/-- Reading a word always shortens a string that has one. -/
theorem nextWord_string_length_lt {iterator : StringIterator}
    (more : iterator.hasNextWord.1 = true) :
    iterator.nextWord.2.string.length < iterator.string.length := by
  have more' : iterator.trimStart.string ≠ [] := by
    simpa [StringIterator.hasNextWord, List.length_pos_iff] using more
  have size := currentWordSize_pos more'
    (startsWith_skipSeparators iterator.separator iterator.string)
  have shorter := skipSeparators_length_le iterator.separator iterator.string
  have positive := List.length_pos_iff.mpr more'
  simp only [StringIterator.nextWord, StringIterator.hasNextWord, trimStart_trimStart, positive,
    decide_true, if_true, List.length_drop]
  simp only [StringIterator.trimStart] at *
  omega

/-- The filling loop of `split_string`: the words in the order in which the slots
`tokens[iterator->index]` are written. -/
def readWords (iterator : StringIterator) : List CString :=
  if iterator.hasNextWord.1 then
    iterator.nextWord.1 :: readWords iterator.nextWord.2
  else []
termination_by iterator.string.length
decreasing_by exact nextWord_string_length_lt (by assumption)

/-- What `split_string` returns: the value stored in `size` and the tokens. A
`NULL` array goes with size 0. -/
structure SplitString where
  size : Nat
  tokens : List CString

def splitString (string : CString) (delimiter : Separator) : SplitString :=
  let iterator := newStringIterator string delimiter
  let numberOfTokens := getNumberOfWordsLeft iterator
  if numberOfTokens = 0 then { size := 0, tokens := [] }
  else { size := numberOfTokens, tokens := readWords iterator }

/-- The filling loop of `split_string_keep_trace`, with the amount it adds to
`*last`. -/
def readWordsKeepTrace (iterator : StringIterator) : List CString × Nat :=
  if iterator.hasNextWord.1 then
    let trace := (startsWith iterator.nextWord.2.string iterator.separator.text).toNat
    let (words, last) := readWordsKeepTrace iterator.nextWord.2
    (iterator.nextWord.1 :: words, trace + last)
  else ([], 0)
termination_by iterator.string.length
decreasing_by exact nextWord_string_length_lt (by assumption)

structure SplitStringKeepTrace where
  size : Nat
  tokens : List CString
  last : Int

def splitStringKeepTrace (string : CString) (delimiter : Separator) : SplitStringKeepTrace :=
  let iterator := newStringIterator string delimiter
  let numberOfTokens := getNumberOfWordsLeft iterator
  if numberOfTokens = 0 then { size := 0, tokens := [], last := -1 }
  else
    let (tokens, last) := readWordsKeepTrace iterator
    { size := numberOfTokens, tokens, last := -1 + last }

/-- `join_strings`: each token, then the separator unless it was the last token. -/
def joinStrings : List CString → CString → CString
  | [], _ => []
  | [token], _ => token
  | token :: next :: tokens, separator => token ++ separator ++ joinStrings (next :: tokens) separator

/-- `contains_string`. -/
def containsString (array : List CString) (word : CString) : Bool := array.any (· == word)

/-- The first loop of `trim_spaces`, which counts `trim_start_len`. -/
def leadingSpaces : CString → Nat
  | [] => 0
  | char :: rest => if char = ' ' then leadingSpaces rest + 1 else 0

/-- The second loop of `trim_spaces`, which counts `trim_end_len` backwards from
the end. On a string made of spaces alone it would go on below the first byte;
the model stops there. -/
def trailingSpaces (string : CString) : Nat := leadingSpaces string.reverse

def trimSpaces (string : CString) : CString :=
  if string.length = 0 then []
  else
    let trimStartLen := leadingSpaces string
    let trimEndLen := trailingSpaces string
    if trimStartLen = 0 ∧ trimEndLen = 0 then string
    else if trimStartLen + trimEndLen ≥ string.length then []
    else (string.drop trimStartLen).take (string.length - trimStartLen - trimEndLen)

/-- `is_only_composed_of`, from one index of the string on. -/
def isOnlyComposedOf (string : CString) (pattern : Separator) : Bool :=
  if string = [] then true
  else if startsWith string pattern.text then
    isOnlyComposedOf (string.drop pattern.text.length) pattern
  else false
termination_by string.length
decreasing_by
  rename_i nonempty _
  have := List.length_pos_iff.mpr nonempty
  have := pattern.length_pos
  simp only [List.length_drop]
  omega

end Jsh
