import Mathlib.Data.List.Count
import Mathlib.Data.List.Perm.Basic
import Jsh.Descriptors

/-! Laws of the descriptor table and of the closing loops: what `open`, `pipe` and
`close` do to a valid table, and which descriptors the integer sets select. -/

set_option autoImplicit false

namespace Jsh

/-- The table of a running shell: distinct non-negative numbers, the standard
descriptors open, and no pipe newer than the last call of `pipe`. -/
structure Kernel.Valid (kernel : Kernel) : Prop where
  distinct : kernel.numbers.Nodup
  nonnegative : ∀ number ∈ kernel.numbers, 0 ≤ number
  standard : ∀ number : Int, 0 ≤ number → number ≤ 2 → number ∈ kernel.numbers
  serials : ∀ descriptor ∈ kernel.descriptors, ∀ serial,
    descriptor.file = .pipeRead serial ∨ descriptor.file = .pipeWrite serial →
      serial < kernel.pipes

theorem Kernel.mem_numbers {kernel : Kernel} {number : Int} :
    number ∈ kernel.numbers ↔ ∃ descriptor ∈ kernel.descriptors, descriptor.number = number := by
  simp [Kernel.numbers]

theorem lowestFree_not_mem (numbers : List Int) : lowestFree numbers ∉ numbers :=
  Library.firstUnused_not_mem (fun _ _ same => Int.ofNat_inj.mp same) numbers

theorem lowestFree_nonneg (numbers : List Int) : 0 ≤ lowestFree numbers := by
  simp [lowestFree]

/-- A newly allocated number lies above the standard descriptors. -/
theorem Kernel.Valid.lt_of_not_mem {kernel : Kernel} (valid : kernel.Valid) {number : Int}
    (nonnegative : 0 ≤ number) (fresh : number ∉ kernel.numbers) : 2 < number := by
  by_contra small
  exact fresh (valid.standard number nonnegative (by omega))

/-! ## `open` -/

theorem Kernel.openFile_ok {outcomes : FileOutcomes} {kernel kernel' : Kernel} {path : CString}
    {mode : OpenMode} {fd : Int}
    (opened : kernel.openFile outcomes path mode = (.ok fd, kernel')) :
    outcomes.openError kernel.opens.length = none ∧ fd = lowestFree kernel.numbers ∧
      kernel' =
        { kernel with
          opens := kernel.opens ++ [(path, mode)]
          descriptors := ⟨fd, .file kernel.opens.length⟩ :: kernel.descriptors } := by
  unfold Kernel.openFile at opened
  cases failed : outcomes.openError kernel.opens.length with
  | some error => simp [failed] at opened
  | none =>
      simp only [failed, Prod.mk.injEq, Except.ok.injEq] at opened
      obtain ⟨rfl, rfl⟩ := opened
      exact ⟨rfl, rfl, rfl⟩

theorem Kernel.openFile_error {outcomes : FileOutcomes} {kernel kernel' : Kernel} {path : CString}
    {mode : OpenMode} {error : CString}
    (refused : kernel.openFile outcomes path mode = (.error error, kernel')) :
    outcomes.openError kernel.opens.length = some error ∧
      kernel' = { kernel with opens := kernel.opens ++ [(path, mode)] } := by
  unfold Kernel.openFile at refused
  cases failed : outcomes.openError kernel.opens.length with
  | none => simp [failed] at refused
  | some found =>
      simp only [failed, Prod.mk.injEq, Except.error.injEq] at refused
      obtain ⟨rfl, rfl⟩ := refused
      exact ⟨rfl, rfl⟩

/-- Adding a descriptor with a free number keeps the table valid. -/
theorem Kernel.Valid.add {kernel : Kernel} (valid : kernel.Valid) {descriptor : Descriptor}
    {opens : List (CString × OpenMode)} {pipes : Nat}
    (nonnegative : 0 ≤ descriptor.number) (fresh : descriptor.number ∉ kernel.numbers)
    (grown : kernel.pipes ≤ pipes)
    (serial : ∀ serial, descriptor.file = .pipeRead serial ∨ descriptor.file = .pipeWrite serial →
      serial < pipes) :
    Kernel.Valid { descriptors := descriptor :: kernel.descriptors, opens, pipes } where
  distinct := List.nodup_cons.mpr ⟨fresh, valid.distinct⟩
  nonnegative := by
    intro number member
    rcases List.mem_cons.mp member with rfl | member
    · exact nonnegative
    · exact valid.nonnegative number member
  standard := fun number low high => .tail _ (valid.standard number low high)
  serials := by
    intro other member
    rcases List.mem_cons.mp member with rfl | member
    · exact serial
    · exact fun found made => Nat.lt_of_lt_of_le (valid.serials other member found made) grown

theorem Kernel.Valid.openFile {outcomes : FileOutcomes} {kernel kernel' : Kernel} {path : CString}
    {mode : OpenMode} {result : Except CString Int} (valid : kernel.Valid)
    (called : kernel.openFile outcomes path mode = (result, kernel')) : kernel'.Valid := by
  cases result with
  | error error =>
      obtain ⟨_, rfl⟩ := Kernel.openFile_error called
      exact ⟨valid.distinct, valid.nonnegative, valid.standard, valid.serials⟩
  | ok fd =>
      obtain ⟨_, rfl, rfl⟩ := Kernel.openFile_ok called
      exact valid.add (lowestFree_nonneg _) (lowestFree_not_mem _) (Nat.le_refl _) (by simp)

/-! ## `pipe` -/

theorem Kernel.pipe_some {outcomes : FileOutcomes} {kernel kernel' : Kernel} {fd : Int × Int}
    (created : kernel.pipe outcomes = (some fd, kernel')) :
    outcomes.pipeSucceeds kernel.pipes = true ∧ fd.1 = lowestFree kernel.numbers ∧
      fd.2 = lowestFree (fd.1 :: kernel.numbers) ∧
      kernel' =
        { kernel with
          pipes := kernel.pipes + 1
          descriptors := ⟨fd.2, .pipeWrite kernel.pipes⟩ :: ⟨fd.1, .pipeRead kernel.pipes⟩ ::
            kernel.descriptors } := by
  unfold Kernel.pipe at created
  by_cases succeeds : outcomes.pipeSucceeds kernel.pipes = true
  · simp only [succeeds, if_true, Prod.mk.injEq, Option.some.injEq] at created
    obtain ⟨rfl, rfl⟩ := created
    exact ⟨succeeds, rfl, rfl, rfl⟩
  · simp [succeeds] at created

theorem Kernel.pipe_none {outcomes : FileOutcomes} {kernel kernel' : Kernel}
    (failed : kernel.pipe outcomes = (none, kernel')) :
    outcomes.pipeSucceeds kernel.pipes = false ∧ kernel' = { kernel with pipes := kernel.pipes + 1 } := by
  unfold Kernel.pipe at failed
  by_cases succeeds : outcomes.pipeSucceeds kernel.pipes = true
  · simp [succeeds] at failed
  · simp only [succeeds, Bool.false_eq_true, if_false, Prod.mk.injEq, true_and] at failed
    exact ⟨by simpa using succeeds, failed.symm⟩

theorem Kernel.Valid.pipe {outcomes : FileOutcomes} {kernel kernel' : Kernel}
    {result : Option (Int × Int)} (valid : kernel.Valid)
    (called : kernel.pipe outcomes = (result, kernel')) : kernel'.Valid := by
  cases result with
  | none =>
      obtain ⟨_, rfl⟩ := Kernel.pipe_none called
      exact ⟨valid.distinct, valid.nonnegative, valid.standard,
        fun descriptor member serial made =>
          Nat.lt_succ_of_lt (valid.serials descriptor member serial made)⟩
  | some fd =>
      obtain ⟨_, readEnd, writeEnd, rfl⟩ := Kernel.pipe_some called
      have first : Kernel.Valid
          { descriptors := ⟨fd.1, .pipeRead kernel.pipes⟩ :: kernel.descriptors
            opens := kernel.opens
            pipes := kernel.pipes + 1 } :=
        valid.add (readEnd ▸ lowestFree_nonneg _) (readEnd ▸ lowestFree_not_mem _) (by simp)
          (by simp)
      have free : fd.2 ∉ fd.1 :: kernel.numbers := writeEnd ▸ lowestFree_not_mem _
      exact first.add (writeEnd ▸ lowestFree_nonneg _) free (Nat.le_refl _) (by simp)

/-- Both ends of a new pipe lie above the standard descriptors. -/
theorem Kernel.Valid.lt_pipe {outcomes : FileOutcomes} {kernel kernel' : Kernel} {fd : Int × Int}
    (valid : kernel.Valid) (created : kernel.pipe outcomes = (some fd, kernel')) :
    2 < fd.1 ∧ 2 < fd.2 := by
  obtain ⟨_, readEnd, writeEnd, _⟩ := Kernel.pipe_some created
  refine ⟨valid.lt_of_not_mem (readEnd ▸ lowestFree_nonneg _) (readEnd ▸ lowestFree_not_mem _),
    valid.lt_of_not_mem (writeEnd ▸ lowestFree_nonneg _) fun member => ?_⟩
  exact lowestFree_not_mem (fd.1 :: kernel.numbers) (writeEnd ▸ .tail _ member)

/-! ## `close` -/

theorem Kernel.mem_close {kernel : Kernel} {fd : Int} {descriptor : Descriptor} :
    descriptor ∈ (kernel.close fd).descriptors ↔
      descriptor ∈ kernel.descriptors ∧ descriptor.number ≠ fd := by
  simp [Kernel.close]

theorem Kernel.Valid.close {kernel : Kernel} (valid : kernel.Valid) {fd : Int} (above : 2 < fd) :
    (kernel.close fd).Valid where
  distinct := valid.distinct.sublist (List.filter_sublist.map _)
  nonnegative := fun number member =>
    valid.nonnegative number ((List.filter_sublist.map _).subset member)
  standard := by
    intro number low high
    obtain ⟨descriptor, member, rfl⟩ := Kernel.mem_numbers.mp (valid.standard number low high)
    exact Kernel.mem_numbers.mpr ⟨descriptor, Kernel.mem_close.mpr ⟨member, by omega⟩, rfl⟩
  serials := fun descriptor member => valid.serials descriptor (Kernel.mem_close.mp member).1

/-- Closing an open descriptor of a table with distinct numbers removes exactly it. -/
theorem Kernel.descriptors_perm_close {kernel : Kernel} (valid : kernel.Valid)
    {descriptor : Descriptor} (member : descriptor ∈ kernel.descriptors) :
    kernel.descriptors.Perm (descriptor :: (kernel.close descriptor.number).descriptors) := by
  obtain ⟨before, after, split⟩ := List.append_of_mem member
  have distinct := valid.distinct
  rw [Kernel.numbers, split, List.map_append, List.map_cons] at distinct
  have apart := (List.nodup_middle.mp distinct)
  simp only [List.nodup_cons, List.mem_append, List.mem_map, not_or, not_exists, not_and] at apart
  have keptBefore : before.filter (fun other => other.number ≠ descriptor.number) = before := by
    simpa [List.filter_eq_self] using apart.1.1
  have keptAfter : after.filter (fun other => other.number ≠ descriptor.number) = after := by
    simpa [List.filter_eq_self] using apart.1.2
  have closed : (kernel.close descriptor.number).descriptors = before ++ after := by
    simp only [Kernel.close, split, List.filter_append, keptBefore, List.filter_cons, keptAfter]
    simp
  rw [closed, split]
  exact List.perm_middle

/-! ## Integer sets -/

/-- The number of slots that hold no value. -/
def freeSlots (set : List Int) : Nat := set.countP fun slot => decide (slot < 0)

/-- `add_set` in a set with a free slot adds the value to the non-negative ones. -/
theorem mem_addSet {set : List Int} {value other : Int} (room : 0 < freeSlots set)
    (nonnegative : 0 ≤ other) :
    other ∈ (addSet set value).1 ↔ other ∈ set ∨ other = value := by
  induction set with
  | nil => simp [freeSlots] at room
  | cons slot rest ih =>
      unfold addSet
      by_cases free : slot < 0
      · have different : other ≠ slot := by omega
        simp [free, different, or_comm]
      · by_cases same : slot = value
        · simp only [same, if_true, List.mem_cons]
          grind
        · have room' : 0 < freeSlots rest := by simpa [freeSlots, free] using room
          simp only [free, same, if_false, List.mem_cons, ih room']
          grind

theorem freeSlots_addSet_ge (set : List Int) (value : Int) :
    freeSlots set ≤ freeSlots (addSet set value).1 + 1 := by
  induction set with
  | nil => simp [addSet]
  | cons slot rest ih =>
      unfold addSet
      by_cases free : slot < 0
      · simp only [free, if_true, freeSlots, List.countP_cons]
        grind
      · by_cases same : slot = value
        · subst same
          simp [free]
        · simpa [free, same, freeSlots] using ih

private theorem mem_foldl_addSet {values : List Int} :
    ∀ {set : List Int} {other : Int}, values.length ≤ freeSlots set → 0 ≤ other →
      (other ∈ values.foldl (fun set value => (addSet set value).1) set ↔
        other ∈ set ∨ other ∈ values) := by
  induction values with
  | nil => simp
  | cons value values ih =>
      intro set other room nonnegative
      simp only [List.length_cons] at room
      have kept := freeSlots_addSet_ge set value
      rw [List.foldl_cons, ih (by omega) nonnegative, mem_addSet (by omega) nonnegative,
        List.mem_cons, or_assoc]

/-- A large enough set ends up with exactly the non-negative values added to it. -/
theorem mem_fillSet {size : Nat} {values : List Int} (enough : values.length ≤ size) {other : Int}
    (nonnegative : 0 ≤ other) : other ∈ fillSet size values ↔ other ∈ values := by
  have room : values.length ≤ freeSlots (List.replicate size (-1)) := by
    rw [freeSlots, List.countP_replicate, if_pos (by decide)]
    exact enough
  rw [fillSet, mem_foldl_addSet room nonnegative]
  simp only [List.mem_replicate, or_iff_right_iff_imp]
  omega

theorem contains2_iff {array : List (Int × Int)} {value : Int} :
    contains2 array value = true ↔ ∃ pair ∈ array, pair.1 = value ∨ pair.2 = value := by
  simp [contains2]

/-- A loop that closes the selected ones among some descriptors. -/
theorem mem_foldl_close (selected : Int → Prop) [DecidablePred selected] (fds : List Int) :
    ∀ {kernel : Kernel} {descriptor : Descriptor},
      descriptor ∈ (fds.foldl (fun kernel fd =>
          if selected fd then kernel.close fd else kernel) kernel).descriptors ↔
        descriptor ∈ kernel.descriptors ∧
          ¬ (descriptor.number ∈ fds ∧ selected descriptor.number) := by
  induction fds with
  | nil => simp
  | cons fd fds ih =>
      intro kernel descriptor
      rw [List.foldl_cons, ih]
      by_cases chosen : selected fd
      · simp only [chosen, if_true, Kernel.mem_close, List.mem_cons]
        grind
      · simp only [chosen, if_false, List.mem_cons]
        grind

theorem foldl_calls (set : List Int) : ∀ calls : List Int,
    set.foldl (fun calls fd => if fd > 2 then calls ++ [fd] else calls) calls =
      calls ++ set.filter (· > 2) := by
  induction set with
  | nil => simp
  | cons fd rest ih =>
      intro calls
      rw [List.foldl_cons, ih]
      by_cases closed : fd > 2 <;> simp [closed]

theorem closeCalls_eq (fds : List Int) :
    closeCalls fds = (fillSet fds.length fds).filter (· > 2) := foldl_calls _ []

theorem closeUnusedFileDescriptorsFromArray_eq (kernel : Kernel) (fds : List Int) :
    closeUnusedFileDescriptorsFromArray kernel fds =
      (fillSet fds.length fds).foldl
        (fun kernel fd => if fd > 2 then kernel.close fd else kernel) kernel := by
  rw [closeUnusedFileDescriptorsFromArray, closeCalls_eq, List.foldl_filter]
  simp

/-- `close_unused_file_descriptors_from_array` closes the descriptors above 2 that
stand in the array, and no other. -/
theorem mem_closeUnusedFileDescriptorsFromArray {kernel : Kernel} {fds : List Int}
    {descriptor : Descriptor} :
    descriptor ∈ (closeUnusedFileDescriptorsFromArray kernel fds).descriptors ↔
      descriptor ∈ kernel.descriptors ∧ ¬ (descriptor.number ∈ fds ∧ 2 < descriptor.number) := by
  rw [closeUnusedFileDescriptorsFromArray_eq, mem_foldl_close (fun fd => fd > 2)]
  have listed : 2 < descriptor.number →
      (descriptor.number ∈ fillSet fds.length fds ↔ descriptor.number ∈ fds) :=
    fun above => mem_fillSet (Nat.le_refl _) (Int.le_of_lt (Int.lt_trans (by decide) above))
  grind

theorem Kernel.Valid.foldl_close (selected : Int → Prop) [DecidablePred selected]
    (above : ∀ fd, selected fd → 2 < fd) (fds : List Int) :
    ∀ {kernel : Kernel}, kernel.Valid → (fds.foldl (fun kernel fd =>
      if selected fd then kernel.close fd else kernel) kernel).Valid := by
  induction fds with
  | nil => exact fun valid => valid
  | cons fd fds ih =>
      intro kernel valid
      rw [List.foldl_cons]
      split
      · next chosen => exact ih (valid.close (above fd chosen))
      · exact ih valid

theorem Kernel.Valid.closeArray {kernel : Kernel} (valid : kernel.Valid) (fds : List Int) :
    (closeUnusedFileDescriptorsFromArray kernel fds).Valid := by
  rw [closeUnusedFileDescriptorsFromArray_eq]
  exact valid.foldl_close (fun fd => fd > 2) (fun _ above => above) _

end Jsh
