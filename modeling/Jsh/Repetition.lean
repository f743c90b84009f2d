import Jsh.Command
import Jsh.Trimming

/-!
# Repeated patterns

`is_only_composed_of` takes one pattern after another from the front of a string, `repeat`
copies a pattern into a block, and `get_number_of_words_left` counts what stands between
patterns, in an `unsigned int`.
-/

set_option autoImplicit false

namespace Jsh

open Library

/-! ## `is_only_composed_of` -/

/-- The pattern as often as the number says. -/
def repeated (pattern : CString) (count : Nat) : CString := (List.replicate count pattern).flatten

@[simp] theorem repeated_zero (pattern : CString) : repeated pattern 0 = [] := rfl

theorem repeated_succ (pattern : CString) (count : Nat) :
    repeated pattern (count + 1) = pattern ++ repeated pattern count := by
  simp [repeated, List.replicate_succ]

theorem repeated_succ' (pattern : CString) (count : Nat) :
    repeated pattern (count + 1) = repeated pattern count ++ pattern := by
  simp [repeated, List.replicate_succ']

@[simp] theorem length_repeated (pattern : CString) (count : Nat) :
    (repeated pattern count).length = count * pattern.length := by
  induction count with
  | zero => simp
  | succ count ih => rw [repeated_succ, List.length_append, ih, Nat.succ_mul, Nat.add_comm]

theorem isOnlyComposedOf_append (pattern : Separator) (rest : CString) :
    isOnlyComposedOf (pattern.text ++ rest) pattern = isOnlyComposedOf rest pattern := by
  have nonempty : pattern.text ++ rest ≠ [] := fun empty =>
    pattern.nonempty (List.append_eq_nil_iff.mp empty).1
  have present : startsWith (pattern.text ++ rest) pattern.text = true :=
    startsWith_iff.mpr (List.prefix_append _ _)
  rw [isOnlyComposedOf, if_neg nonempty, if_pos present, List.drop_left]

theorem isOnlyComposedOf_iff_repeated {string : CString} {pattern : Separator} :
    isOnlyComposedOf string pattern = true ↔ ∃ count, string = repeated pattern.text count := by
  constructor
  · intro composed
    fun_induction isOnlyComposedOf string pattern with
    | case1 => exact ⟨0, rfl⟩
    | case2 string nonempty present ih =>
        obtain ⟨count, rest⟩ := ih composed
        obtain ⟨after, rfl⟩ := startsWith_iff.mp present
        rw [List.drop_left] at rest
        exact ⟨count + 1, by rw [repeated_succ, rest]⟩
    | case3 => cases composed
  · rintro ⟨count, rfl⟩
    induction count with
    | zero => rw [repeated_zero, isOnlyComposedOf, if_pos rfl]
    | succ count ih => rw [repeated_succ, isOnlyComposedOf_append, ih]

theorem isOnlyComposedOf_iff_words {string : CString} {pattern : Separator} :
    isOnlyComposedOf string pattern = true ↔ words pattern string = [] := by
  refine ⟨words_of_isOnlyComposedOf, fun none => ?_⟩
  fun_induction isOnlyComposedOf string pattern with
  | case1 => rfl
  | case2 string nonempty present ih => exact ih ((words_drop_separator present).trans none)
  | case3 string nonempty absent =>
      have kept := skipSeparators_of_not_startsWith (Bool.not_eq_true _ ▸ absent)
      rw [words_eq, kept, if_neg nonempty] at none
      cases none

/-! ## `repeat` -/

/-- The loop of `repeat`. -/
def copyRepeats (str : CString) (n : Nat) (result : Block Char) : Option (Block Char) :=
  (List.range n).foldlM
    (fun result index => result.write (index * str.length % 2 ^ 64) (str.map .symbol)) result

/-- `repeat` with the block it returns. Sizes and offsets are reduced like a `size_t`. -/
def repeatInMemory (str : CString) (n : UInt64) : Option (Block Char) :=
  if n = 0 then (Block.allocate 1).write 0 [.terminator]
  else do
    let result ← copyRepeats str n.toNat (Block.allocate ((n.toNat * str.length + 1) % 2 ^ 64))
    result.write (n.toNat * str.length % 2 ^ 64) [.terminator]

theorem copyRepeats_succ (str : CString) (n : Nat) (block : Block Char) :
    copyRepeats str (n + 1) block =
      (copyRepeats str n block).bind fun result =>
        result.write (n * str.length % 2 ^ 64) (str.map .symbol) := by
  rw [copyRepeats, List.range_succ, List.foldlM_append]
  simp [copyRepeats]

theorem copyRepeats_eq (str : CString) {size : Nat} (fits : size < 2 ^ 64) (n : Nat)
    (room : n * str.length ≤ size) :
    copyRepeats str n (Block.allocate size) =
      some ((repeated str n).map .symbol ++ Block.allocate (size - n * str.length)) := by
  induction n with
  | zero => simp [copyRepeats]
  | succ n ih =>
      rw [Nat.succ_mul] at room
      have offset : n * str.length % 2 ^ 64 = ((repeated str n).map Cell.symbol).length := by
        rw [List.length_map, length_repeated]
        exact Nat.mod_eq_of_lt (by omega)
      have left : (str.map Cell.symbol).length ≤
          (Block.allocate (size - n * str.length) : Block Char).length := by
        rw [List.length_map, Block.allocate_length]
        omega
      have written := Block.write_after ((repeated str n).map .symbol) _ _ left
      rw [copyRepeats_succ, ih (by omega), Option.bind_some, offset, written, repeated_succ',
        List.map_append, List.length_map, Nat.succ_mul]
      simp [Block.allocate, Nat.sub_sub]

/-- The copies stay inside of the block only when there is room for all of them. -/
theorem copyRepeats_room {str : CString} {block result : Block Char}
    (fits : block.length < 2 ^ 64) (n : Nat) (copied : copyRepeats str n block = some result) :
    result.length = block.length ∧ n * str.length ≤ block.length := by
  induction n generalizing result with
  | zero =>
      cases copied
      simp
  | succ n ih =>
      rw [copyRepeats_succ] at copied
      obtain ⟨middle, before, written⟩ := Option.bind_eq_some_iff.mp copied
      obtain ⟨same, room⟩ := ih before
      rw [Nat.mod_eq_of_lt (by omega), Block.write] at written
      split at written
      · next inside =>
        cases written
        simp only [List.length_map] at inside
        simp only [List.length_append, List.length_take, List.length_drop, List.length_map,
          Nat.succ_mul]
        omega
      · cases written

theorem repeatInMemory_eq {str : CString} {n : UInt64}
    (fits : n.toNat * str.length + 1 < 2 ^ 64) :
    repeatInMemory str n = some (Block.terminated (repeated str n.toNat)) := by
  rw [repeatInMemory]
  by_cases none : n = 0
  · rw [if_pos none, none]
    rfl
  · have copied := copyRepeats_eq str fits n.toNat (Nat.le_succ _)
    have written := Block.write_after ((repeated str n.toNat).map .symbol) [.terminator]
      (Block.allocate (n.toNat * str.length + 1 - n.toNat * str.length)) (by simp)
    rw [List.length_map, length_repeated] at written
    rw [if_neg none, Nat.mod_eq_of_lt fits, copied, Option.bind_eq_bind, Option.bind_some,
      Nat.mod_eq_of_lt (Nat.lt_of_succ_lt fits), written]
    simp [Block.terminated, Block.allocate]

/-- With a size that is no `size_t` the copies leave the block. -/
theorem repeatInMemory_fits {str : CString} {n : UInt64} {block : Block Char}
    (returned : repeatInMemory str n = some block) : n.toNat * str.length + 1 < 2 ^ 64 := by
  rw [repeatInMemory] at returned
  by_cases none : n = 0
  · rw [none]
    simp
  · rw [if_neg none] at returned
    obtain ⟨result, copied, _⟩ := Option.bind_eq_some_iff.mp returned
    obtain ⟨_, room⟩ := copyRepeats_room (by rw [Block.allocate_length]; omega) _ copied
    rw [Block.allocate_length] at room
    omega

theorem repeatInMemory_iff {str string : CString} {n : UInt64} :
    repeatInMemory str n = some (Block.terminated string) ↔
      string = repeated str n.toNat ∧ n.toNat * str.length + 1 < 2 ^ 64 := by
  constructor
  · intro returned
    have fits := repeatInMemory_fits returned
    rw [repeatInMemory_eq fits, Option.some_inj, Block.terminated_inj] at returned
    exact ⟨returned.symm, fits⟩
  · rintro ⟨rfl, fits⟩
    exact repeatInMemory_eq fits

/-! ## `get_number_of_words_left` -/

/-- The loop of `get_number_of_words_left` with its counter `total_words`. -/
def countWordsUnsigned (separator : Separator) (word : Bool) (totalWords : UInt32)
    (string : CString) : UInt32 :=
  if string = [] then totalWords + word.toUInt32
  else if word then
    if startsWith string separator.text then
      countWordsUnsigned separator false (totalWords + 1) (string.drop separator.text.length)
    else countWordsUnsigned separator true totalWords string.tail
  else if ¬ startsWith string separator.text then
    countWordsUnsigned separator true totalWords string.tail
  else countWordsUnsigned separator false totalWords (string.drop separator.text.length)
termination_by string.length
decreasing_by
  all_goals
    rename_i nonempty _ _
    have := List.length_pos_iff.mpr nonempty
    have := separator.length_pos
    simp only [List.length_drop, List.length_tail]
    omega

/-- `get_number_of_words_left`, which returns an `int`. -/
def getNumberOfWordsLeftInt (iterator : StringIterator) : Int32 :=
  (countWordsUnsigned iterator.separator false 0 iterator.string).toInt32

theorem countWordsUnsigned_eq (separator : Separator) (word : Bool) (totalWords : UInt32)
    (string : CString) :
    countWordsUnsigned separator word totalWords string =
      totalWords + .ofNat (countWords separator word string) := by
  fun_induction countWordsUnsigned separator word totalWords string with
  | case1 word totalWords =>
      rw [countWords, if_pos rfl]
      cases word <;> rfl
  | case2 totalWords string nonempty present ih =>
      rw [ih, countWords.eq_1 separator true, if_neg nonempty, if_pos present, UInt32.ofNat_add,
        UInt32.add_assoc]
      rfl
  | case3 totalWords string nonempty absent ih =>
      rw [ih, countWords.eq_1 separator true string, if_neg nonempty, if_neg absent]
  | case4 word totalWords string nonempty outside absent ih =>
      rw [ih, countWords.eq_1 separator word string, if_neg nonempty, if_neg absent]
  | case5 word totalWords string nonempty outside present ih =>
      have idle : word = false := by simpa using outside
      rw [ih, countWords.eq_1 separator word string, if_neg nonempty, if_pos (not_not.mp present),
        idle, Bool.toNat_false, Nat.zero_add]

theorem getNumberOfWordsLeftInt_eq_zero_iff {string : CString} {separator : Separator} :
    getNumberOfWordsLeftInt (newStringIterator string separator) = 0 ↔
      2 ^ 32 ∣ (words separator string).length := by
  have zero : ∀ count : UInt32, count.toInt32 = 0 ↔ count = 0 := fun count =>
    ⟨fun same => congrArg Int32.toUInt32 same, fun same => same ▸ rfl⟩
  rw [getNumberOfWordsLeftInt, zero, countWordsUnsigned_eq, UInt32.zero_add,
    UInt32.ofNat_eq_iff_mod_eq_toNat, UInt32.toNat_zero, ← Nat.dvd_iff_mod_eq_zero]
  exact Iff.of_eq (congrArg (2 ^ 32 ∣ ·) (countWords_eq_length_words separator string))

/-! ## Agreement -/

/-- `is_only_composed_of` tells whether the string is a repeated pattern, and whether there
is no word. -/
structure Agree (string : StoredString) (pattern : Separator) : Prop where
  repeats : isOnlyComposedOf string.bytes pattern = true ↔
    ∃ n, repeatInMemory pattern.text n = some (Block.terminated string.bytes)
  counts : isOnlyComposedOf string.bytes pattern = true ↔
    getNumberOfWordsLeftInt (newStringIterator string.bytes pattern) = 0

/-- The number of words is zero only if an `unsigned int` that counts them is. -/
def Counted (string : CString) (pattern : Separator) : Prop :=
  2 ^ 32 ∣ (words pattern string).length → words pattern string = []

theorem isOnlyComposedOf_iff_repeat (string : StoredString) (pattern : Separator) :
    isOnlyComposedOf string.bytes pattern = true ↔
      ∃ n, repeatInMemory pattern.text n = some (Block.terminated string.bytes) := by
  rw [isOnlyComposedOf_iff_repeated]
  constructor
  · rintro ⟨count, same⟩
    have fits := string.fits
    have size := congrArg List.length same
    rw [length_repeated] at size
    have below : count ≤ count * pattern.text.length := Nat.le_mul_of_pos_right _ pattern.length_pos
    have number : (UInt64.ofNat count).toNat = count :=
      UInt64.toNat_ofNat_of_lt' (by simp only [UInt64.size]; omega)
    refine ⟨.ofNat count, repeatInMemory_iff.mpr ?_⟩
    rw [number]
    exact ⟨same, by omega⟩
  · rintro ⟨n, returned⟩
    exact ⟨n.toNat, (repeatInMemory_iff.mp returned).1⟩

theorem counted_iff {string : CString} {pattern : Separator} :
    (isOnlyComposedOf string pattern = true ↔
      getNumberOfWordsLeftInt (newStringIterator string pattern) = 0) ↔
        Counted string pattern := by
  rw [isOnlyComposedOf_iff_words, getNumberOfWordsLeftInt_eq_zero_iff, Counted]
  refine ⟨fun same => same.mpr, fun counted => ⟨fun none => ?_, counted⟩⟩
  rw [none]
  exact Nat.dvd_zero _

theorem newEmptyCommand_eq_false_iff {string : CString} :
    newEmptyCommand string = false ↔ isOnlyComposedOf string commandSeparator = true := by
  rw [newEmptyCommand, Bool.and_eq_false_iff, Bool.not_eq_false', decide_eq_false_iff_not,
    not_not, List.length_eq_zero_iff]
  constructor
  · rintro (rfl | composed)
    · rw [isOnlyComposedOf, if_pos rfl]
    · exact composed
  · exact .inr

/-- The functions agree for a string and a pattern, and the tests of `new_empty_command`
and `parse_command_call` for the string, unless the number of words is a multiple of
`2 ^ 32` other than zero. -/
theorem composed_repeated_counted_iff (string : StoredString) (pattern : Separator) :
    (Agree string pattern ↔ Counted string.bytes pattern) ∧
      ((newEmptyCommand string.bytes = false ↔
          getNumberOfWordsLeftInt (newStringIterator string.bytes commandSeparator) = 0) ↔
        Counted string.bytes commandSeparator) := by
  rw [newEmptyCommand_eq_false_iff, counted_iff]
  refine ⟨⟨fun agree => counted_iff.mp agree.counts, fun counted => ?_⟩, Iff.rfl⟩
  exact ⟨isOnlyComposedOf_iff_repeat string pattern, counted_iff.mpr counted⟩

theorem length_words_repeated (count : Nat) :
    (words commandSeparator (repeated "a ".toList count)).length = count := by
  rw [← countWords_eq_length_words]
  induction count with
  | zero => rw [repeated_zero, countWords, if_pos rfl]; rfl
  | succ count ih =>
      have letter : ¬ startsWith ("a ".toList ++ repeated "a ".toList count)
          commandSeparator.text = true := Bool.eq_false_iff.mp rfl
      have space : startsWith ("a ".toList ++ repeated "a ".toList count).tail
          commandSeparator.text = true := rfl
      rw [repeated_succ, countWords, if_neg (by simp), if_neg letter, countWords,
        if_neg (by simp), if_pos space, Bool.toNat_true]
      exact (congrArg (1 + ·) ih).trans (Nat.add_comm 1 count)

/-- The string `a a a ...` of `2 ^ 32` words. -/
theorem words_without_count :
    ∃ string : StoredString, string.bytes = repeated "a ".toList (2 ^ 32) ∧
      getNumberOfWordsLeftInt (newStringIterator string.bytes commandSeparator) = 0 ∧
      ¬ Agree string commandSeparator := by
  have length := length_repeated "a ".toList (2 ^ 32)
  refine ⟨{ bytes := repeated "a ".toList (2 ^ 32), fits := ?_ }, rfl, ?_, ?_⟩
  · rw [length]
    decide
  · rw [getNumberOfWordsLeftInt_eq_zero_iff, length_words_repeated]
  · intro agree
    have counted := counted_iff.mp agree.counts
    have none := counted (by rw [length_words_repeated])
    have count := length_words_repeated (2 ^ 32)
    rw [none] at count
    cases count

/-! ## Commands -/

/-- `parse_command` only trims strings that `new_empty_command` has accepted. -/
theorem trimSpacesInMemory_of_command {string : StoredString}
    (accepted : newEmptyCommand string.bytes = true) :
    trimSpacesInMemory string = some (Block.terminated (trimSpaces string.bytes)) := by
  rw [trimSpaces_eq_trimmed]
  refine trimSpacesInMemory_of_other ?_
  by_contra blank
  push Not at blank
  have spaces : string.bytes = repeated commandSeparator.text string.bytes.length := by
    rw [repeated, commandSeparator_single, List.flatten_replicate_singleton]
    exact List.eq_replicate_of_mem blank
  have rejected := newEmptyCommand_eq_false_iff.mpr (isOnlyComposedOf_iff_repeated.mpr ⟨_, spaces⟩)
  rw [accepted] at rejected
  cases rejected

end Jsh
