import Jsh.JobTrees

/-!
# Numbers

The integers that `parse_intmax_t` reads, and the jobs that `get_job` finds.
-/

set_option autoImplicit false

namespace Jsh

open Library

/-! ## Written integers -/

/-- A decimal integer as `strtoimax` takes it: white space, a sign if there is one, and
digits. -/
inductive WrittenInteger : CString → Int → Prop where
  | digits {digits : CString} : digits ≠ [] → (∀ char ∈ digits, char.isDigit = true) →
      WrittenInteger digits (Nat.ofDigitChars 10 digits 0 : Nat)
  | plus {digits : CString} : digits ≠ [] → (∀ char ∈ digits, char.isDigit = true) →
      WrittenInteger ('+' :: digits) (Nat.ofDigitChars 10 digits 0 : Nat)
  | minus {digits : CString} : digits ≠ [] → (∀ char ∈ digits, char.isDigit = true) →
      WrittenInteger ('-' :: digits) (-(Nat.ofDigitChars 10 digits 0 : Nat))
  | blank {char : Char} {text : CString} {value : Int} : isSpaceChar char = true →
      WrittenInteger text value → WrittenInteger (char :: text) value

theorem WrittenInteger.digit_mem {text : CString} {value : Int}
    (written : WrittenInteger text value) : ∃ char ∈ text, char.isDigit = true := by
  have first : ∀ digits : CString, digits ≠ [] → (∀ char ∈ digits, char.isDigit = true) →
      ∃ char ∈ digits, char.isDigit = true := by
    intro digits nonempty all
    obtain ⟨char, member⟩ := List.exists_mem_of_ne_nil digits nonempty
    exact ⟨char, member, all char member⟩
  induction written with
  | digits nonempty all => exact first _ nonempty all
  | plus nonempty all | minus nonempty all =>
      obtain ⟨char, member, digit⟩ := first _ nonempty all
      exact ⟨char, .tail _ member, digit⟩
  | blank _ _ ih =>
      obtain ⟨char, member, digit⟩ := ih
      exact ⟨char, .tail _ member, digit⟩

theorem WrittenInteger.ne_nil {text : CString} {value : Int} (written : WrittenInteger text value) :
    text ≠ [] := by
  obtain ⟨char, member, _⟩ := written.digit_mem
  exact List.ne_nil_of_mem member

/-- `strtoimax` skips white space. -/
theorem strtoimax_blank {char : Char} {text : CString} (blank : isSpaceChar char = true)
    (nonempty : text ≠ []) (value : Int) :
    strtoimax (char :: text) = (value, []) ↔ strtoimax text = (value, []) := by
  unfold strtoimax
  rw [List.dropWhile_cons_of_pos blank]
  dsimp only
  generalize text.dropWhile isSpaceChar = trimmed
  split <;> split <;> simp [nonempty]

/-- `strtoimax` on a text that starts with no white space. -/
theorem strtoimax_cons {char : Char} (rest : CString) (visible : isSpaceChar char = false) :
    strtoimax (char :: rest) =
      let digits := if char = '-' ∨ char = '+' then rest else char :: rest
      if (digits.headD ' ').isDigit then
        (if char = '-' then -(digitsValue 0 digits : Int) else digitsValue 0 digits,
          digits.dropWhile (·.isDigit))
      else (0, char :: rest) := by
  unfold strtoimax
  rw [List.dropWhile_cons_of_neg (by simp [visible])]
  simp

theorem strtoimax_signed {char : Char} {digits : CString} (visible : isSpaceChar char = false)
    (nonempty : digits ≠ []) (all : ∀ char ∈ digits, char.isDigit = true)
    (sign : char = '-' ∨ char = '+') :
    strtoimax (char :: digits) =
      (if char = '-' then -(Nat.ofDigitChars 10 digits 0 : Int) else Nat.ofDigitChars 10 digits 0,
        []) := by
  have head : (digits.headD ' ').isDigit = true := by
    cases digits with
    | nil => exact absurd rfl nonempty
    | cons first rest => exact all first (.head _)
  rw [strtoimax_cons digits visible]
  simp only [if_pos sign, head, if_true, digitsValue_eq all, List.dropWhile_eq_nil_iff.mpr all]

theorem WrittenInteger.strtoimax {text : CString} {value : Int}
    (written : WrittenInteger text value) : strtoimax text = (value, []) := by
  induction written with
  | digits nonempty all => rw [strtoimax_digits nonempty all, digitsValue_eq all]
  | plus nonempty all =>
      rw [strtoimax_signed (by decide) nonempty all (.inr rfl), if_neg (by decide)]
  | minus nonempty all =>
      rw [strtoimax_signed (by decide) nonempty all (.inl rfl), if_pos rfl]
  | blank space written ih => exact (strtoimax_blank space written.ne_nil _).mpr ih

/-- A text other than the empty one that `strtoimax` reads to its end is an integer. -/
theorem writtenInteger_of_strtoimax {text : CString} {value : Int} (nonempty : text ≠ [])
    (read : strtoimax text = (value, [])) : WrittenInteger text value := by
  induction text with
  | nil => exact absurd rfl nonempty
  | cons char rest ih =>
      cases space : isSpaceChar char with
      | true =>
          by_cases last : rest = []
          · subst last
            simp [Jsh.strtoimax, space] at read
          · exact .blank space (ih last ((strtoimax_blank space last value).mp read))
      | false =>
          rw [strtoimax_cons rest space] at read
          dsimp only at read
          generalize shape : (if char = '-' ∨ char = '+' then rest else char :: rest) = digits
            at read
          split at read
          · next digit =>
            obtain ⟨rfl, consumed⟩ := Prod.mk.inj read
            have all := List.dropWhile_eq_nil_iff.mp consumed
            have some : digits ≠ [] := by
              rintro rfl
              cases digit
            rw [digitsValue_eq all]
            by_cases minus : char = '-'
            · subst minus
              rw [if_pos (.inl rfl)] at shape
              subst shape
              rw [if_pos rfl]
              exact .minus some all
            · rw [if_neg minus]
              by_cases plus : char = '+'
              · subst plus
                rw [if_pos (.inr rfl)] at shape
                subst shape
                exact .plus some all
              · rw [if_neg (not_or.mpr ⟨minus, plus⟩)] at shape
                subst shape
                exact .digits some all
          · cases read

theorem WrittenInteger.unique {text : CString} {value value' : Int}
    (written : WrittenInteger text value) (written' : WrittenInteger text value') :
    value = value' := by
  have read := written.strtoimax
  rw [written'.strtoimax] at read
  cases read
  rfl

/-- The number of a job is no integer with its sign. -/
theorem not_writtenInteger_percent (text : CString) (value : Int) :
    ¬ WrittenInteger ('%' :: text) value := by
  intro written
  cases written with
  | digits _ all => exact absurd (all '%' (.head _)) (by decide)
  | blank space _ => exact absurd space (by decide)

theorem WrittenInteger.unmarked {text : CString} {value : Int}
    (written : WrittenInteger text value) : startsWith text ['%'] = false := by
  apply Bool.eq_false_iff.mpr
  intro marked
  obtain ⟨rest, rfl⟩ := startsWith_iff.mp marked
  exact not_writtenInteger_percent rest value written

/-! ## `int` -/

def intMin : Int := -2 ^ 31
def intMax : Int := 2 ^ 31 - 1

/-- The values of the type `int`, to which the conversion changes nothing. -/
def FitsInt (value : Int) : Prop := intMin ≤ value ∧ value ≤ intMax

instance (value : Int) : Decidable (FitsInt value) :=
  inferInstanceAs (Decidable (intMin ≤ value ∧ value ≤ intMax))

/-- The text is an integer of the type `int`. -/
def IntWritten (text : CString) : Prop := ∃ value, WrittenInteger text value ∧ FitsInt value

theorem toInt_of_fitsInt {value : Int} (fits : FitsInt value) : toInt value = value := by
  obtain ⟨low, high⟩ := fits
  unfold intMin at low
  unfold intMax at high
  exact Int.bmod_eq_of_le (by omega) (by omega)

/-! ## `parse_intmax_t` -/

/-- What `parse_intmax_t` accepts: an integer of 64 bits, or nothing at all. -/
inductive IntmaxRead : CString → Int → Prop where
  | integer {text : CString} {value : Int} : WrittenInteger text value → intmaxMin ≤ value →
      value ≤ intmaxMax → IntmaxRead text value
  | empty : IntmaxRead [] 0

/-- An `int` is read. -/
theorem IntmaxRead.of_fits {text : CString} {value : Int} (written : WrittenInteger text value)
    (fits : FitsInt value) : IntmaxRead text value := by
  obtain ⟨low, high⟩ := fits
  unfold intMin at low
  unfold intMax at high
  exact .integer written (by unfold intmaxMin; omega) (by unfold intmaxMax; omega)

theorem intmaxRead_iff {text : CString} {value : Int} :
    IntmaxRead text value ↔
      strtoimax text = (value, []) ∧ intmaxMin ≤ value ∧ value ≤ intmaxMax := by
  constructor
  · intro read
    cases read with
    | integer written low high => exact ⟨written.strtoimax, low, high⟩
    | empty => decide
  · rintro ⟨read, low, high⟩
    by_cases empty : text = []
    · subst empty
      cases read
      exact .empty
    · exact .integer (writtenInteger_of_strtoimax empty read) low high

/-- A text that is not the line of a job, all of which start with a bracket. -/
def IsMessage (text : CString) : Prop := text.head? ≠ some '['

theorem isMessage_decimal (number : Int) (rest : CString) : IsMessage (decimal number ++ rest) := by
  obtain ⟨char, digits, shape, start⟩ := decimal_head number
  intro same
  rw [shape] at same
  cases same
  cases start with
  | inl digit => exact absurd digit (by decide)
  | inr sign => exact absurd sign (by decide)

theorem parseIntmaxT_cases (text : CString) (fd : Int) (start : Control) :
    (∃ value, IntmaxRead text value ∧ parseIntmaxT text fd start = .ok (some value) start) ∨
      (∀ value, ¬ IntmaxRead text value) ∧
        ∃ message, IsMessage message ∧
          parseIntmaxT text fd start = .ok none (start.printed fd message) := by
  simp only [intmaxRead_iff]
  unfold parseIntmaxT
  cases read : strtoimax text with
  | mk value rest =>
      dsimp only
      split
      · next low => exact .inr ⟨fun _ accepted => by cases accepted.1; omega, _,
      by simp [IsMessage], rfl⟩
      · split
        · next high => exact .inr ⟨fun _ accepted => by cases accepted.1; omega, _,
      by simp [IsMessage], rfl⟩
        · split
          · next left => exact .inr ⟨fun _ accepted => by cases accepted.1; exact left rfl, _,
              by simp [IsMessage], rfl⟩
          · next low high whole =>
            rw [not_ne_iff.mp whole]
            exact .inl ⟨value, ⟨rfl, by omega, by omega⟩, rfl⟩

/-! ## `get_job` -/

/-- The job that `%n` stands for, and its slot. -/
inductive NamesJob (table : JobTable) : CString → Nat → Job → Prop where
  | mk {text : CString} {index : Nat} {job : Job} : WrittenInteger text (index + 1 : Nat) →
      ((index + 1 : Nat) : Int) ≤ intmaxMax → index < table.capacity → table.size ≠ 0 →
      table.slot index = some job → NamesJob table ('%' :: text) index job

theorem NamesJob.slot {table : JobTable} {identifier : CString} {index : Nat} {job : Job}
    (names : NamesJob table identifier index job) : table.slot index = some job := by
  cases names with
  | mk _ _ _ _ slot => exact slot

theorem NamesJob.unique {table : JobTable} {identifier : CString} {index index' : Nat}
    {job job' : Job} (names : NamesJob table identifier index job)
    (names' : NamesJob table identifier index' job') : index = index' ∧ job = job' := by
  cases names with
  | mk written _ _ _ slot =>
      cases names' with
      | mk written' _ _ _ slot' =>
          have same := written.unique written'
          have index_eq : index = index' := by omega
          subst index_eq
          cases slot.symm.trans slot'
          exact ⟨rfl, rfl⟩

theorem getJob_cases (identifier : CString) (fd : Int) (start : Control) :
    (∃ index job, NamesJob start.table identifier index job ∧
        getJob identifier fd start = .ok (some index) start) ∨
      (∀ index job, ¬ NamesJob start.table identifier index job) ∧
        ∃ message, IsMessage message ∧
          getJob identifier fd start = .ok none (start.printed fd message) := by
  unfold getJob
  by_cases marked : startsWith identifier ['%'] = true
  · obtain ⟨text, rfl⟩ := startsWith_iff.mp marked
    rw [if_neg (not_not_intro marked)]
    simp only [List.singleton_append, List.drop_one, List.tail_cons]
    cases parseIntmaxT_cases text fd start with
    | inl parsed =>
        obtain ⟨value, read, ran⟩ := parsed
        rw [bind_of_ok ran]
        dsimp only
        rw [bind_of_ok (get_apply start)]
        have other : ∀ index job, NamesJob start.table ('%' :: text) index job →
            value = (index + 1 : Nat) := by
          intro index job names
          cases names with
          | mk written _ _ _ _ =>
              cases read with
              | integer written' _ _ => exact written'.unique written
              | empty => exact absurd rfl written.ne_nil
        by_cases negative : value < 0
        · rw [if_pos negative]
          exact .inr ⟨fun index job names => by have := other index job names; omega, _,
            isMessage_decimal _ _, rfl⟩
        · rw [if_neg negative]
          by_cases outside :
              value.toNat < 1 ∨ value.toNat > start.table.capacity ∨ start.table.size = 0
          · rw [if_pos outside]
            refine .inr ⟨fun index job names => ?_, _, by simp [IsMessage], rfl⟩
            have same := other index job names
            cases names with
            | mk _ _ bounded some _ => omega
          · rw [if_neg outside]
            cases slot : start.table.slot (value.toNat - 1) with
            | none =>
                refine .inr ⟨fun index job names => ?_, _, by simp [IsMessage], rfl⟩
                have same := other index job names
                cases names with
                | mk _ _ _ _ found =>
                    rw [show value.toNat - 1 = index by omega, found] at slot
                    cases slot
            | some job =>
                obtain ⟨index, same⟩ : ∃ index : Nat, value = (index + 1 : Nat) :=
                  ⟨value.toNat - 1, by omega⟩
                subst same
                rw [if_neg (by simp)]
                cases read with
                | integer written _ high =>
                    exact .inl ⟨index, job, .mk written high (by omega) (by omega)
                      (by simpa using slot), rfl⟩
    | inr refused =>
        obtain ⟨none, message, plain, ran⟩ := refused
        rw [bind_of_ok ran]
        refine .inr ⟨fun index job names => ?_, message, plain, rfl⟩
        cases names with
        | mk written high _ _ _ => exact none _ (.integer written (by unfold intmaxMin; omega) high)
  · rw [if_pos marked]
    refine .inr ⟨fun index job names => ?_, _, by simp [IsMessage], rfl⟩
    cases names
    exact marked rfl

end Jsh
