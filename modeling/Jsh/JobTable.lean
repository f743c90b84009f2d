import Mathlib.Data.List.ReduceOption
import Mathlib.Data.List.TakeWhile
import Jsh.JobMoves

/-!
# The job table

What `add_job`, `remove_job`, `fd_update_jobs` and `get_job` do to the job table, in
every run of these operations from `init_job_table` on.
-/

set_option autoImplicit false

namespace Jsh

open Library

/-- The size counts the jobs, each of which has the id of its slot, and the capacity is
the length of the array, a number of increments. -/
structure JobTable.Consistent (table : JobTable) : Prop where
  length : table.slots.length = table.capacity
  size : table.size = table.jobs.length
  ids : ∀ index job, table.slot index = some job → job.id = index + 1
  increments : initialJobTableCapacity ∣ table.capacity
  bounded : table.capacity * 8 < 2 ^ 64

theorem JobTable.slot_eq_some {table : JobTable} {index : Nat} {job : Job} :
    table.slot index = some job ↔ table.slots[index]? = some (some job) := by
  unfold JobTable.slot
  rw [List.getD_eq_getElem?_getD]
  cases table.slots[index]? <;> simp

theorem JobTable.lt_of_slot {table : JobTable} {index : Nat} {job : Job}
    (found : table.slot index = some job) : index < table.slots.length :=
  (List.getElem?_eq_some_iff.mp (slot_eq_some.mp found)).1

theorem JobTable.slot_write {table : JobTable} {index : Nat} (inside : index < table.slots.length)
    (slot : Option Job) (other : Nat) :
    (table.write index slot).slot other = if other = index then slot else table.slot other := by
  unfold JobTable.slot JobTable.write
  rw [List.getD_eq_getElem?_getD, List.getElem?_set]
  by_cases same : index = other
  · subst same
    simp [inside]
  · simp [same, Ne.symm same]

theorem JobTable.jobs_length (table : JobTable) :
    table.jobs.length = table.slots.countP Option.isSome := by
  rw [JobTable.jobs, List.reduceOption_length_eq, List.countP_eq_length_filter]

/-- A write changes the number of jobs by that of its slot. -/
theorem JobTable.jobs_length_write {table : JobTable} {index : Nat}
    (inside : index < table.slots.length) (slot : Option Job) :
    (table.write index slot).jobs.length + (table.slot index).toList.length =
      table.jobs.length + slot.toList.length := by
  have counted := List.countP_set (p := Option.isSome) (a := slot) inside
  have read : table.slot index = table.slots[index] := by simp [JobTable.slot, inside]
  have weight : ∀ slot : Option Job, slot.toList.length = if slot.isSome then 1 else 0 := by
    intro slot
    cases slot <;> rfl
  have present : table.slots[index].isSome = true → 0 < table.slots.countP Option.isSome :=
    fun some => List.countP_pos_iff.mpr ⟨_, List.getElem_mem inside, some⟩
  rw [JobTable.jobs_length, JobTable.jobs_length, read, weight, weight]
  unfold JobTable.write
  rw [counted]
  split
  · next some =>
    have := present some
    omega
  · omega

theorem consistent_initJobTable : initJobTable.Consistent where
  length := rfl
  size := rfl
  ids := by
    intro index job found
    have entry := JobTable.slot_eq_some.mp found
    simp [initJobTable, List.getElem?_replicate] at entry
  increments := dvd_rfl
  bounded := by decide

/-- A job in a slot is replaced by one with the same id. -/
theorem JobTable.Consistent.update {table : JobTable} (consistent : table.Consistent) {index : Nat}
    {job job' : Job} (found : table.slot index = some job) (same : job'.id = job.id) :
    (table.write index (some job')).Consistent where
  length := by
    rw [JobTable.write, List.length_set]
    exact consistent.length
  size := by
    have counted := table.jobs_length_write (JobTable.lt_of_slot found) (some job')
    rw [found] at counted
    have size := consistent.size
    simp only [JobTable.write, Option.toList_some, List.length_singleton] at counted size ⊢
    omega
  ids := by
    intro other job'' entry
    rw [JobTable.slot_write (JobTable.lt_of_slot found)] at entry
    split at entry
    · next here =>
      cases entry
      rw [same, here]
      exact consistent.ids index job found
    · exact consistent.ids other job'' entry
  increments := consistent.increments
  bounded := consistent.bounded

theorem JobTable.Consistent.erase {table : JobTable} (consistent : table.Consistent) {index : Nat}
    {job : Job} (found : table.slot index = some job) : (table.erase index).Consistent where
  length := by
    rw [JobTable.erase, JobTable.write, List.length_set]
    exact consistent.length
  size := by
    have counted := table.jobs_length_write (JobTable.lt_of_slot found) none
    rw [found] at counted
    have size := consistent.size
    simp only [JobTable.erase, Option.toList_some, List.length_singleton, Option.toList_none,
      List.length_nil] at counted size ⊢
    change _ - 1 = (table.write index none).jobs.length
    omega
  ids := by
    intro other job' entry
    change (table.write index none).slot other = some job' at entry
    rw [JobTable.slot_write (JobTable.lt_of_slot found)] at entry
    split at entry
    · cases entry
    · exact consistent.ids other job' entry
  increments := consistent.increments
  bounded := consistent.bounded

theorem JobTable.Consistent.insert {table : JobTable} (consistent : table.Consistent) {index : Nat}
    (inside : index < table.slots.length) (free : table.slot index = none) (job : Job) :
    (table.insert index { job with id := index + 1 }).Consistent where
  length := by
    rw [JobTable.insert, JobTable.write, List.length_set]
    exact consistent.length
  size := by
    have counted := table.jobs_length_write inside (some { job with id := index + 1 })
    rw [free] at counted
    have size := consistent.size
    simp only [JobTable.insert, Option.toList_some, List.length_singleton, Option.toList_none,
      List.length_nil] at counted size ⊢
    change _ + 1 = (table.write index _).jobs.length
    omega
  ids := by
    intro other job' entry
    change (table.write index _).slot other = some job' at entry
    rw [JobTable.slot_write inside] at entry
    split at entry
    · next here =>
      cases entry
      rw [here]
    · exact consistent.ids other job' entry
  increments := consistent.increments
  bounded := consistent.bounded

/-- A full table has a job in each slot. -/
theorem JobTable.Consistent.full_iff {table : JobTable} (consistent : table.Consistent) :
    table.size = table.capacity ↔ ∀ index < table.capacity, (table.slot index).isSome = true := by
  rw [consistent.size, JobTable.jobs_length, ← consistent.length, List.countP_eq_length]
  constructor
  · intro all index inside
    simpa [JobTable.slot, inside] using all _ (List.getElem_mem inside)
  · intro all slot member
    obtain ⟨index, inside, rfl⟩ := List.mem_iff_getElem.mp member
    simpa [JobTable.slot, inside] using all index inside

/-- Growing keeps every slot. -/
theorem JobTable.Consistent.slot_grow {table : JobTable} (consistent : table.Consistent)
    (full : table.size = table.capacity) (index : Nat) : table.grow.slot index = table.slot index := by
  have all : table.slots.take table.size = table.slots := by
    rw [full, ← consistent.length, List.take_length]
  simp only [JobTable.slot, JobTable.grow, all, List.getD_eq_getElem?_getD, List.getElem?_append]
  split
  · rfl
  · next outside =>
    rw [List.getElem?_eq_none (Nat.le_of_not_lt outside), List.getElem?_replicate]
    split <;> rfl

theorem JobTable.Consistent.grow {table : JobTable} (consistent : table.Consistent)
    (full : table.size = table.capacity) (bounded : table.grow.capacity * 8 < 2 ^ 64) :
    table.grow.Consistent where
  length := by
    have length := consistent.length
    simp only [JobTable.grow, List.length_append, List.length_take, List.length_replicate]
    omega
  size := by
    have all : table.slots.take table.size = table.slots := by
      rw [full, ← consistent.length, List.take_length]
    have size := consistent.size
    rw [JobTable.jobs_length] at size ⊢
    simpa [JobTable.grow, all, List.countP_replicate] using size
  ids := by
    intro index job found
    rw [consistent.slot_grow full] at found
    exact consistent.ids index job found
  increments := (Nat.dvd_add_right consistent.increments).mpr dvd_rfl
  bounded

theorem JobTable.slot_of_findIdx? {table : JobTable} {index : Nat}
    (found : table.slots.findIdx? (·.isNone) = some index) :
    index < table.slots.length ∧ table.slot index = none ∧
      ∀ earlier < index, (table.slot earlier).isSome = true := by
  obtain ⟨inside, free, least⟩ := List.findIdx?_eq_some_iff_getElem.mp found
  refine ⟨inside, by simpa [JobTable.slot, inside] using free, fun earlier before => ?_⟩
  have taken := least earlier before
  simpa [JobTable.slot, Nat.lt_trans before inside, Option.isSome_iff_ne_none] using taken

section Course

variable {added : Job → Prop} {start finish : Control}

theorem Move.consistent (moved : Move added start finish) (consistent : start.table.Consistent) :
    finish.table.Consistent := by
  cases moved with
  | quiet quietly => exact quietly.table ▸ consistent
  | signal _ _ => exact consistent
  | update found updated => exact consistent.update found updated.id
  | remove found => exact consistent.erase found
  | grow _ _ full bounded => exact consistent.grow full bounded
  | @add index job _ free =>
      obtain ⟨inside, empty, _⟩ := JobTable.slot_of_findIdx? free
      exact consistent.insert inside empty job

theorem Course.consistent (course : Course added start finish)
    (consistent : start.table.Consistent) : finish.table.Consistent := by
  induction course with
  | refl => exact consistent
  | tail _ moved ih => exact moved.consistent ih

end Course

/-! ## What holds of every job -/

theorem JobTable.mem_jobs {table : JobTable} {job : Job} :
    job ∈ table.jobs ↔ some job ∈ table.slots := List.reduceOption_mem_iff

theorem JobTable.mem_jobs_of_slot {table : JobTable} {index : Nat} {job : Job}
    (found : table.slot index = some job) : job ∈ table.jobs := by
  rw [JobTable.mem_jobs]
  unfold JobTable.slot at found
  rw [List.getD_eq_getElem?_getD] at found
  cases entry : table.slots[index]? with
  | none => simp [entry] at found
  | some slot =>
      simp only [entry, Option.getD_some] at found
      exact found ▸ List.mem_of_getElem? entry

theorem JobTable.mem_jobs_write {table : JobTable} {index : Nat} {slot : Option Job} {job : Job}
    (member : job ∈ (table.write index slot).jobs) : job ∈ table.jobs ∨ slot = some job := by
  rw [JobTable.mem_jobs] at member ⊢
  exact (List.mem_or_eq_of_mem_set member).imp_right Eq.symm

theorem JobTable.mem_jobs_grow {table : JobTable} {job : Job} (member : job ∈ table.grow.jobs) :
    job ∈ table.jobs := by
  rw [JobTable.mem_jobs] at member ⊢
  rcases List.mem_append.mp member with kept | fresh
  · exact List.mem_of_mem_take kept
  · cases List.eq_of_mem_replicate fresh

/-- The table, and each of the tables there have been, has the property. -/
structure TablesHold (property : JobTable → Prop) (control : Control) : Prop where
  table : property control.table
  tables : ∀ table, .table table ∈ control.trace → property table

theorem TablesHold.mono {property weaker : JobTable → Prop} {control : Control}
    (held : TablesHold property control) (implies : ∀ table, property table → weaker table) :
    TablesHold weaker control :=
  ⟨implies _ held.table, fun table recorded => implies _ (held.tables table recorded)⟩

theorem TablesHold.record {property : JobTable → Prop} {control : Control}
    (held : TablesHold property control) {events : List Event} {calls : Nat}
    (silent : ∀ event ∈ events, ∀ table, event ≠ .table table) :
    TablesHold property { control with trace := control.trace ++ events, calls } where
  table := held.table
  tables := by
    intro table member
    rcases List.mem_append.mp member with old | new
    · exact held.tables table old
    · exact absurd rfl (silent _ new table)

theorem TablesHold.store {property : JobTable → Prop} {control : Control}
    (held : TablesHold property control) {table : JobTable} (holds : property table) :
    TablesHold property (control.store table) where
  table := holds
  tables := by
    intro other member
    rcases List.mem_append.mp member with old | new
    · exact held.tables other old
    · cases List.mem_singleton.mp new
      exact holds

section Tables

variable {added kept : Job → Prop} {property : JobTable → Prop} {start finish : Control}

theorem Move.tablesHold (moved : Move added start finish)
    (step : property start.table → property finish.table) (held : TablesHold property start) :
    TablesHold property finish := by
  have holds := step held.table
  cases moved with
  | @quiet finish quietly =>
      obtain ⟨events, grown, quiet⟩ := quietly.trace
      have silent : TablesHold property
          { start with trace := start.trace ++ events, calls := finish.calls } :=
        held.record fun event member _ same => by
          simpa [same, Event.Quiet] using quiet event member
      rw [← grown, ← quietly.table] at silent
      exact silent
  | signal number found => exact held.record (by simp)
  | update _ _ | remove _ | grow _ _ _ _ | add _ _ => exact held.store holds

/-- A property that waiting keeps, and that the jobs that enter the table have. -/
theorem Move.jobs (moved : Move added start finish)
    (stable : ∀ {job job' : Job}, job.Updated job' → kept job → kept job')
    (entered : ∀ {job : Job} (id : Nat), added job → kept { job with id })
    (held : ∀ job ∈ start.table.jobs, kept job) : ∀ job ∈ finish.table.jobs, kept job := by
  intro other member
  cases moved with
  | quiet quietly => exact held other (quietly.table ▸ member)
  | signal _ _ => exact held other member
  | update found updated =>
      rcases JobTable.mem_jobs_write member with old | same
      · exact held other old
      · cases same
        exact stable updated (held _ (JobTable.mem_jobs_of_slot found))
  | remove found =>
      rcases JobTable.mem_jobs_write member with old | same
      · exact held other old
      · cases same
  | grow _ _ _ _ => exact held other (JobTable.mem_jobs_grow member)
  | add allowed _ =>
      rcases JobTable.mem_jobs_write member with old | same
      · exact held other old
      · cases same
        exact entered _ allowed

end Tables

/-! ## Contracts of the operations -/

/-- A job has this id. -/
def JobTable.InUse (table : JobTable) (id : Nat) : Prop :=
  0 < id ∧ (table.slot (id - 1)).isSome = true

theorem JobTable.Consistent.bounds {table : JobTable} (consistent : table.Consistent) {id : Nat}
    (used : table.InUse id) : 0 < id ∧ id ≤ table.capacity ∧ table.size ≠ 0 := by
  obtain ⟨positive, some⟩ := used
  obtain ⟨job, found⟩ := Option.isSome_iff_exists.mp some
  have inside := JobTable.lt_of_slot found
  rw [consistent.length] at inside
  have jobs : table.jobs.length ≠ 0 := by
    rw [JobTable.jobs_length, Nat.ne_zero_iff_zero_lt, List.countP_pos_iff]
    exact ⟨_, List.mem_of_getElem? (JobTable.slot_eq_some.mp found), rfl⟩
  rw [← consistent.size] at jobs
  exact ⟨positive, by omega, jobs⟩

/-- What adding a job does to the table. -/
structure JobAdded (job : Job) (id : Nat) (before after : JobTable) : Prop where
  positive : 0 < id
  free : ¬ before.InUse id
  least : ∀ other, 0 < other → other < id → before.InUse other
  entered : after.slot (id - 1) = some { job with id }
  others : ∀ index, index ≠ id - 1 → after.slot index = before.slot index
  grown : (∀ index < before.capacity, before.InUse (index + 1)) →
    after.capacity = before.capacity + initialJobTableCapacity
  kept : ¬ (∀ index < before.capacity, before.InUse (index + 1)) →
    after.capacity = before.capacity

/-- What removing an id does to the table. -/
structure JobRemoved (id returned : Nat) (before after : JobTable) : Prop where
  returned : returned = 0 ↔ before.InUse id
  removed : ¬ after.InUse id
  others : ∀ index, index + 1 ≠ id → after.slot index = before.slot index
  capacity : after.capacity = before.capacity

/-- What updating the jobs does to the table. -/
structure JobsUpdated (before after : JobTable) : Prop where
  empty : ∀ index, before.slot index = none → after.slot index = none
  updated : ∀ index job, before.slot index = some job →
    after.slot index = none ∨ ∃ job', after.slot index = some job' ∧ job.Updated job'
  capacity : after.capacity = before.capacity

section Contracts

variable {control : Control}

/-- There is an empty slot unless the table is full. -/
theorem JobTable.Consistent.findIdx? {table : JobTable} (consistent : table.Consistent)
    (room : table.size ≠ table.capacity) :
    ∃ index, table.slots.findIdx? (·.isNone) = some index := by
  rw [Ne, consistent.full_iff] at room
  simp only [not_forall, Bool.not_eq_true, Option.isSome_eq_false_iff, Option.isNone_iff_eq_none]
    at room
  obtain ⟨index, inside, free⟩ := room
  rw [← consistent.length] at inside
  refine Option.isSome_iff_exists.mp ?_
  rw [List.findIdx?_isSome, List.any_eq_true]
  exact ⟨table.slots[index], List.getElem_mem inside, by simpa [JobTable.slot, inside] using free⟩

theorem enterJob_eq {table : JobTable} (consistent : table.Consistent)
    (room : table.size ≠ table.capacity) (current : control.table = table) (job : Job) :
    ∃ index, table.slots.findIdx? (·.isNone) = some index ∧
      enterJob job control =
        .ok (toInt (index + 1 : Nat), { job with id := index + 1 })
          (control.store (table.insert index { job with id := index + 1 })) := by
  obtain ⟨index, free⟩ := consistent.findIdx? room
  refine ⟨index, free, ?_⟩
  subst current
  unfold enterJob
  rw [bind_of_ok (get_apply control)]
  simp only [free]
  rfl

/-- A job enters the first empty slot. -/
theorem JobAdded.insert {table : JobTable} {index : Nat} (job : Job)
    (free : table.slots.findIdx? (·.isNone) = some index) :
    (table.insert index { job with id := index + 1 }).slot index =
        some { job with id := index + 1 } ∧
      (∀ other, other ≠ index →
        (table.insert index { job with id := index + 1 }).slot other = table.slot other) ∧
      ¬ table.InUse (index + 1) ∧
      ∀ other, 0 < other → other < index + 1 → table.InUse other := by
  obtain ⟨inside, empty, least⟩ := JobTable.slot_of_findIdx? free
  have written := table.slot_write inside (some { job with id := index + 1 })
  refine ⟨(written index).trans (if_pos rfl), fun other apart => (written other).trans (if_neg apart),
    ?_, ?_⟩
  · simp [JobTable.InUse, empty]
  · intro other positive before
    exact ⟨positive, least (other - 1) (by omega)⟩

theorem toInt_eq_iff (id : Nat) : toInt id = id ↔ id < 2 ^ 31 := by
  unfold toInt
  rw [Int.bmod_def]
  split <;> omega

theorem growTable_eq (control : Control) :
    growTable control = if control.table.grow.capacity * 8 ≥ 2 ^ 64
      then .error (.exited 1) control else .ok () (control.store control.table.grow) := by
  unfold growTable
  rw [bind_of_ok (get_apply control)]
  split <;> rfl

theorem addJob_of_full (full : control.table.size = control.table.capacity) (job : Job) :
    addJob job control = (growTable >>= fun _ => enterJob job) control := by
  unfold addJob
  rw [bind_of_ok (get_apply control)]
  exact congrFun (if_pos full) control

theorem addJob_of_not_full (room : control.table.size ≠ control.table.capacity) (job : Job) :
    addJob job control = enterJob job control := by
  unfold addJob
  rw [bind_of_ok (get_apply control)]
  exact congrFun (if_neg room) control

/-- `add_job` puts the job in the first empty slot, after growing a full table, and
returns its id as an `int`. -/
theorem addJob_contract (consistent : control.table.Consistent) (job : Job) :
    match addJob job control with
    | .ok (returned, added) after => ∃ id : Nat, JobAdded job id control.table after.table ∧
        added = { job with id } ∧ returned = toInt id
    | .error _ after => after = control ∧ control.table.size = control.table.capacity ∧
        2 ^ 64 ≤ control.table.grow.capacity * 8 := by
  have used : ∀ index, control.table.InUse (index + 1) ↔
      (control.table.slot index).isSome = true := by
    intro index
    simp [JobTable.InUse]
  by_cases full : control.table.size = control.table.capacity
  · rw [addJob_of_full full]
    by_cases bounded : control.table.grow.capacity * 8 ≥ 2 ^ 64
    · have fails := growTable_eq control
      rw [if_pos bounded] at fails
      rw [show (growTable >>= fun _ => enterJob job) control = .error (.exited 1) control from
        bind_eq_error.mpr (.inl fails)]
      exact ⟨rfl, full, bounded⟩
    · have grows := growTable_eq control
      rw [if_neg bounded] at grows
      have grown := consistent.grow full (Nat.lt_of_not_le bounded)
      have larger : control.table.grow.size ≠ control.table.grow.capacity := by
        change control.table.size ≠ control.table.capacity + 64
        omega
      obtain ⟨index, free, entered⟩ := enterJob_eq grown larger
        (show (control.store control.table.grow).table = _ from rfl) job
      obtain ⟨here, others, unused, least⟩ := JobAdded.insert job free
      have same := consistent.slot_grow full
      have sameUse : ∀ id, control.table.grow.InUse id ↔ control.table.InUse id := by
        intro id
        rw [JobTable.InUse, JobTable.InUse, same]
      rw [bind_of_ok grows, entered]
      refine ⟨index + 1, ⟨Nat.succ_pos index, ?_, ?_, here, ?_, ?_, ?_⟩, rfl, rfl⟩
      · rwa [← sameUse]
      · intro other positive before
        rw [← sameUse]
        exact least other positive before
      · intro other apart
        rw [← same]
        exact others other apart
      · exact fun _ => rfl
      · intro some
        refine absurd (fun index inside => ?_) some
        exact (used index).mpr (consistent.full_iff.mp full index inside)
  · obtain ⟨index, free, entered⟩ := enterJob_eq consistent full rfl job
    obtain ⟨here, others, unused, least⟩ := JobAdded.insert job free
    rw [addJob_of_not_full full, entered]
    refine ⟨index + 1, ⟨Nat.succ_pos index, unused, least, here, others, ?_, fun _ => rfl⟩, rfl, rfl⟩
    intro all
    refine absurd (consistent.full_iff.mpr fun index inside => ?_) full
    exact (used index).mp (all index inside)

/-- `remove_job` frees the slot of an id in use, and only then returns 0. -/
theorem removeJob_contract (consistent : control.table.Consistent) (id : Nat) :
    ∃ returned after, removeJob id control = .ok returned after ∧
      JobRemoved id returned control.table after.table := by
  unfold removeJob
  rw [bind_of_ok (get_apply control)]
  split
  · next refused =>
    have unused : ¬ control.table.InUse id := by
      intro used
      have := consistent.bounds used
      omega
    exact ⟨1, control, rfl, ⟨by simp [unused], unused, fun _ _ => rfl, rfl⟩⟩
  · next accepted =>
    cases found : control.table.slot (id - 1) with
    | none =>
        have unused : ¬ control.table.InUse id := by simp [JobTable.InUse, found]
        exact ⟨1, control, rfl, ⟨by simp [unused], unused, fun _ _ => rfl, rfl⟩⟩
    | some job =>
        have positive : 0 < id := by omega
        have written := control.table.slot_write (JobTable.lt_of_slot found) none
        refine ⟨0, control.store (control.table.erase (id - 1)), rfl, ⟨?_, ?_, ?_, rfl⟩⟩
        · simp [JobTable.InUse, found, positive]
        · rintro ⟨_, some⟩
          have emptied : (control.table.erase (id - 1)).slot (id - 1) = none :=
            (written _).trans (if_pos rfl)
          exact absurd some (by simp [Control.store, emptied])
        · intro index apart
          exact (written index).trans (if_neg (by omega))

theorem JobsUpdated.trans {first second third : JobTable} (before : JobsUpdated first second)
    (after : JobsUpdated second third) : JobsUpdated first third where
  empty index free := after.empty index (before.empty index free)
  updated := by
    intro index job found
    rcases before.updated index job found with gone | ⟨job', found', updated⟩
    · exact .inl (after.empty index gone)
    · rcases after.updated index job' found' with gone | ⟨job'', found'', updated'⟩
      · exact .inl gone
      · exact .inr ⟨job'', found'', updated.trans updated'⟩
  capacity := after.capacity.trans before.capacity

theorem JobsUpdated.refl (table : JobTable) : JobsUpdated table table :=
  ⟨fun _ free => free, fun _ job found => .inr ⟨job, found, .refl job⟩, rfl⟩

/-- A write to the slot of a job that leaves it empty or updates the job. -/
theorem JobsUpdated.write {table : JobTable} {index : Nat} {job : Job}
    (found : table.slot index = some job) {slot : Option Job}
    (follows : ∀ job' ∈ slot, job.Updated job') : JobsUpdated table (table.write index slot) := by
  have written := table.slot_write (JobTable.lt_of_slot found) slot
  refine ⟨fun other free => ?_, fun other job' entry => ?_, rfl⟩
  · rw [written]
    split
    · next here =>
      rw [here, found] at free
      cases free
    · exact free
  · rw [written]
    split
    · next here =>
      rw [here, found] at entry
      cases entry
      cases slot with
      | none => exact .inl rfl
      | some job'' => exact .inr ⟨job'', rfl, follows job'' rfl⟩
    · exact .inr ⟨job', entry, .refl job'⟩

/-- The functions that add no job leave each job in its slot or remove it. -/
theorem Course.jobsUpdated {start finish : Control} (course : Course (fun _ => False) start finish) :
    JobsUpdated start.table finish.table := by
  induction course with
  | refl => exact .refl _
  | tail _ moved ih =>
      refine ih.trans ?_
      cases moved with
      | quiet quietly => exact quietly.table ▸ .refl _
      | signal _ _ => exact .refl _
      | update found updated => exact .write found (by simpa using updated)
      | remove found =>
          have emptied : JobsUpdated _ (JobTable.write _ _ none) := .write found (by simp)
          exact ⟨emptied.empty, emptied.updated, rfl⟩
      | grow _ impossible => exact impossible.elim
      | add impossible => exact impossible.elim

/-! ## Job identifiers -/

theorem digitsValue_eq {digits : CString} (all : ∀ char ∈ digits, char.isDigit = true)
    (value : Nat) : digitsValue value digits = Nat.ofDigitChars 10 digits value := by
  induction digits generalizing value with
  | nil => simp [digitsValue]
  | cons char rest ih =>
      rw [digitsValue, if_pos (all char (.head _)), Nat.ofDigitChars_cons, Nat.mul_comm 10]
      exact ih (fun other member => all other (.tail _ member)) _

/-- `strtoimax` reads digits up to the end of the string. -/
theorem strtoimax_digits {digits : CString} (nonempty : digits ≠ [])
    (all : ∀ char ∈ digits, char.isDigit = true) :
    strtoimax digits = ((digitsValue 0 digits : Int), []) := by
  cases digits with
  | nil => exact absurd rfl nonempty
  | cons char rest =>
      have digit := all char (.head _)
      have apart : ∀ other : Char, other.isDigit = false → char ≠ other := by
        rintro other no rfl
        rw [digit] at no
        cases no
      have noSpace : isSpaceChar char = false := by
        simp [isSpaceChar, apart ' ' (by decide), apart '\t' (by decide), apart '\n' (by decide),
          apart '\x0b' (by decide), apart '\x0c' (by decide), apart '\r' (by decide)]
      have consumed : (char :: rest).dropWhile (·.isDigit) = [] :=
        List.dropWhile_eq_nil_iff.mpr all
      simp [strtoimax, noSpace, apart '-' (by decide), apart '+' (by decide), digit, consumed]

/-- `strtoimax` reads back a number in decimal. -/
theorem strtoimax_decimal (number : Nat) :
    strtoimax (decimal (number : Int)) = ((number : Int), []) := by
  have all : ∀ char ∈ Nat.toDigits 10 number, char.isDigit = true := fun char member =>
    Nat.isDigit_of_mem_toDigits (by decide) (by decide) member
  have value := digitsValue_eq all 0
  rw [Nat.ofDigitChars_ten_toDigits] at value
  change strtoimax (Nat.toDigits 10 number) = _
  rw [strtoimax_digits Nat.toDigits_ne_nil all, value]

theorem parseIntmaxT_decimal (number : Nat) (fd : Int) (control : Control) :
    ∃ after, after.table = control.table ∧
      parseIntmaxT (decimal (number : Int)) fd control =
        .ok (if (number : Int) > intmaxMax then none else some (number : Int)) after := by
  have notBelow : ¬ (number : Int) < intmaxMin := by
    unfold intmaxMin
    omega
  unfold parseIntmaxT
  simp only [strtoimax_decimal, notBelow, if_false]
  by_cases above : (number : Int) > intmaxMax
  · simp only [above, if_true]
    refine ⟨_, ?_, rfl⟩
    rfl
  · simp only [above, if_false]
    exact ⟨control, rfl, rfl⟩

/-- `get_job` on `%n` finds the job whose id is `n` when there is one, and nothing else. -/
theorem getJob_contract (consistent : control.table.Consistent) (id : Nat) (errorFd : Int) :
    ∃ found after, getJob ('%' :: decimal (id : Int)) errorFd control = .ok found after ∧
      after.table = control.table ∧
      ∀ index, found = some index ↔ control.table.InUse id ∧ index = id - 1 := by
  have starts : startsWith ('%' :: decimal (id : Int)) ['%'] = true := by simp [startsWith]
  obtain ⟨parsed, same, parses⟩ := parseIntmaxT_decimal id errorFd control
  unfold getJob
  simp only [starts, not_true_eq_false, if_false, List.drop_one, List.tail_cons]
  rw [bind_of_ok parses]
  by_cases above : (id : Int) > intmaxMax
  · have unused : ¬ control.table.InUse id := by
      intro used
      have := consistent.bounds used
      have := consistent.bounded
      unfold intmaxMax at above
      omega
    simp only [above, if_true]
    exact ⟨none, parsed, rfl, same, by simp [unused]⟩
  · simp only [above, if_false]
    rw [bind_of_ok (get_apply parsed)]
    have notNegative : ¬ (id : Int) < 0 := by omega
    simp only [notNegative, if_false, Int.toNat_natCast, same]
    by_cases outside : id < 1 ∨ id > control.table.capacity ∨ control.table.size = 0
    · have unused : ¬ control.table.InUse id := by
        intro used
        have := consistent.bounds used
        omega
      simp only [outside, if_true]
      exact ⟨none, _, rfl, same, by simp [unused]⟩
    · simp only [outside, if_false]
      cases found : control.table.slot (id - 1) with
      | none =>
          have unused : ¬ control.table.InUse id := by simp [JobTable.InUse, found]
          exact ⟨none, _, rfl, same, by simp [unused]⟩
      | some job =>
          have used : control.table.InUse id := ⟨by omega, by simp [found]⟩
          exact ⟨some (id - 1), parsed, rfl, same, by simp [used, eq_comm]⟩

end Contracts

/-! ## Runs -/

/-- An operation on the job table. -/
inductive TableOperation where
  | add (job : Job)
  | remove (id : Nat)
  | update (fd : Int)

def TableOperation.run (environment : Environment) : TableOperation → JobAction Unit
  | .add job => do
      let _ ← addJob job
  | .remove id => do
      let _ ← removeJob id
  | .update fd => fdUpdateJobs environment fd

def runOperations (environment : Environment) : List TableOperation → JobAction Unit
  | [] => return
  | operation :: rest => do
      operation.run environment
      runOperations environment rest

theorem TableOperation.run_moves (environment : Environment) (operation : TableOperation) :
    Moves (Course fun _ => True) (operation.run environment) := by
  cases operation with
  | add job => exact (addJob_moves trivial).bind fun _ => .pure _
  | remove id => exact (removeJob_moves id).bind fun _ => .pure _
  | update fd => exact fdUpdateJobs_moves environment fd

theorem runOperations_moves (environment : Environment) (operations : List TableOperation) :
    Moves (Course fun _ => True) (runOperations environment operations) := by
  induction operations with
  | nil => exact .pure _
  | cons operation rest ih => exact (operation.run_moves environment).bind fun _ => ih

/-- After any operations from `init_job_table` on, the table is consistent and the next
operation does what it should, except that `add_job` returns the id of the job only
when it is an `int`. -/
theorem jobTable_operations (environment : Environment) (operations : List TableOperation)
    {start control : Control} (initial : start.table = initJobTable)
    (reached : runOperations environment operations start = .ok () control) :
    control.table.Consistent ∧
      (∀ job,
        match addJob job control with
        | .ok (returned, added) after => ∃ id, JobAdded job id control.table after.table ∧
            added = { job with id } ∧ (returned = id ↔ id < 2 ^ 31)
        | .error _ after => after = control ∧ control.table.size = control.table.capacity ∧
            2 ^ 64 ≤ control.table.grow.capacity * 8) ∧
      (∀ id, ∃ returned after, removeJob id control = .ok returned after ∧
        JobRemoved id returned control.table after.table) ∧
      (∀ fd, Ends (fun after => JobsUpdated control.table after.table) control
        (fdUpdateJobs environment fd)) ∧
      ∀ (id : Nat) (errorFd : Int), ∃ found after,
        getJob ('%' :: decimal (id : Int)) errorFd control = .ok found after ∧
          after.table = control.table ∧
          ∀ index, found = some index ↔ control.table.InUse id ∧ index = id - 1 := by
  have course := (runOperations_moves environment operations start).of_ok reached
  have consistent := course.consistent (initial ▸ consistent_initJobTable)
  refine ⟨consistent, fun job => ?_, removeJob_contract consistent,
    fun fd => Course.jobsUpdated (fdUpdateJobs_moves environment fd control),
    getJob_contract consistent⟩
  have contract := addJob_contract consistent job
  cases ran : addJob job control with
  | error halt after => rwa [ran] at contract
  | ok result after =>
      rw [ran] at contract
      obtain ⟨id, added, entered, returned⟩ := contract
      exact ⟨id, added, entered, by rw [returned, toInt_eq_iff]⟩

theorem JobAdded.inUse {job : Job} {id : Nat} {before after : JobTable}
    (added : JobAdded job id before after) (other : Nat) :
    after.InUse other ↔ before.InUse other ∨ other = id := by
  have positive := added.positive
  by_cases same : other = id
  · subst same
    simp [JobTable.InUse, added.entered, positive]
  · by_cases zero : other = 0
    · simp [JobTable.InUse, zero, Nat.ne_of_lt positive]
    · have kept := added.others (other - 1) (by omega)
      simp [JobTable.InUse, kept, same]

/-- When the ids up to `filled` are in use, the next job gets the next id. -/
theorem addJob_next {control : Control} {filled : Nat} (consistent : control.table.Consistent)
    (used : ∀ id, control.table.InUse id ↔ 0 < id ∧ id ≤ filled)
    (small : control.table.capacity ≤ filled + initialJobTableCapacity) (few : filled < 2 ^ 60)
    (job : Job) :
    ∃ after, addJob job control =
        .ok (toInt (filled + 1 : Nat), { job with id := filled + 1 }) after ∧
      after.table.Consistent ∧ (∀ id, after.table.InUse id ↔ 0 < id ∧ id ≤ filled + 1) ∧
      after.table.capacity ≤ filled + 1 + initialJobTableCapacity := by
  have contract := addJob_contract consistent job
  cases ran : addJob job control with
  | error halt after =>
      rw [ran] at contract
      obtain ⟨_, _, large⟩ := contract
      change 2 ^ 64 ≤ (control.table.capacity + 64) * 8 at large
      simp only [initialJobTableCapacity] at small
      omega
  | ok result after =>
      rw [ran] at contract
      obtain ⟨id, added, entered, returned⟩ := contract
      have next : id = filled + 1 := by
        have free := added.free
        rw [used] at free
        have positive := added.positive
        by_contra different
        have least := added.least (filled + 1) (by omega) (by omega)
        rw [used] at least
        omega
      have course : Course (fun _ => True) control after :=
        (addJob_moves trivial control).of_ok ran
      rw [next] at added entered returned
      refine ⟨after, by rw [← entered, ← returned], course.consistent consistent,
        fun other => ?_, ?_⟩
      · rw [added.inUse, used]
        omega
      · by_cases all : ∀ index < control.table.capacity, control.table.InUse (index + 1)
        · have below : control.table.capacity ≤ filled := by
            by_contra above
            have last := all (control.table.capacity - 1) (by omega)
            rw [used] at last
            omega
          rw [added.grown all]
          omega
        · rw [added.kept all]
          omega

/-- Jobs added to a table where the ids up to `filled` are in use get the next ids. -/
theorem runOperations_adds (environment : Environment) (job : Job) (count : Nat) :
    ∀ (filled : Nat) {start : Control}, start.table.Consistent →
      (∀ id, start.table.InUse id ↔ 0 < id ∧ id ≤ filled) →
      start.table.capacity ≤ filled + initialJobTableCapacity → filled + count < 2 ^ 60 →
      ∃ control, runOperations environment (List.replicate count (.add job)) start = .ok () control ∧
        control.table.Consistent ∧
        (∀ id, control.table.InUse id ↔ 0 < id ∧ id ≤ filled + count) ∧
        control.table.capacity ≤ filled + count + initialJobTableCapacity := by
  induction count with
  | zero => exact fun filled start consistent used small _ => ⟨start, rfl, consistent, used, small⟩
  | succ count ih =>
      intro filled start consistent used small few
      obtain ⟨after, ran, consistent', used', small'⟩ :=
        addJob_next consistent used small (by omega) job
      obtain ⟨control, reached, final⟩ := ih (filled + 1) consistent' used' small' (by omega)
      refine ⟨control, ?_, by simpa [Nat.add_assoc, Nat.add_comm 1 count] using final⟩
      have operated : (TableOperation.add job).run environment start = .ok () after :=
        bind_eq_ok.mpr ⟨_, after, ran, rfl⟩
      rw [List.replicate_succ, runOperations, bind_of_ok operated, reached]

/-- Calls that succeed and processes that exit at once with status 0. -/
def Environment.exiting : Environment where
  files :=
    { openError := fun _ => none
      pipeSucceeds := fun _ => true
      freed := fun _ => ⟨0, 0, 0⟩ }
  fork count := some ⟨(count : Int) + 2, by omega⟩
  handshake _ := true
  waitpid _ _ := .changed 0
  kill _ _ _ := some .noSuchProcess
  tcsetpgrp _ _ := true
  shellPgid := 1
  children _ _ := []
  home := none
  stat _ _ := .directory
  getcwdError _ := none
  chdir _ _ path := .ok path

/-- The job table of a shell that starts. -/
def startedJobs : Control := { table := initJobTable, calls := 0, trace := [] }

/-- Two jobs enter the table and the first is removed. -/
theorem jobTable_after_removal :
    ∃ control, runOperations .exiting
        [.add (newJob 1 "sleep".toList), .add (newJob 1 "cat".toList), .remove 1] startedJobs =
          .ok () control ∧ control.table.Consistent := by
  have reached : runOperations .exiting
      [.add (newJob 1 "sleep".toList), .add (newJob 1 "cat".toList), .remove 1] startedJobs =
        .ok () _ := rfl
  exact ⟨_, reached, (jobTable_operations .exiting _ rfl reached).1⟩

/-- When the first `2 ^ 31 - 1` ids are in use, `add_job` returns a negative number. -/
theorem addJob_returns_negative :
    ∃ control returned added after,
      runOperations .exiting (List.replicate (2 ^ 31 - 1) (.add (newJob 1 "sleep".toList)))
          startedJobs = .ok () control ∧
        (∀ id, control.table.InUse id ↔ 0 < id ∧ id < 2 ^ 31) ∧
        addJob (newJob 1 "sleep".toList) control = .ok (returned, added) after ∧
        added.id = 2 ^ 31 ∧ returned = -2 ^ 31 := by
  have noneUsed : ∀ id, startedJobs.table.InUse id ↔ 0 < id ∧ id ≤ 0 := by
    intro id
    have free : startedJobs.table.slot (id - 1) = none := by
      by_cases inside : id - 1 < initialJobTableCapacity <;>
        simp [startedJobs, initJobTable, JobTable.slot, inside]
    simp [JobTable.InUse, free]
    omega
  have start : startedJobs.table.Consistent := consistent_initJobTable
  obtain ⟨control, reached, consistent, used, small⟩ :=
    runOperations_adds .exiting (newJob 1 "sleep".toList) (2 ^ 31 - 1) 0 start noneUsed
      (Nat.le_refl _) (by omega)
  obtain ⟨after, ran, _⟩ := addJob_next consistent used small (by omega) (newJob 1 "sleep".toList)
  refine ⟨control, _, _, after, reached, fun id => ?_, ran, rfl, by decide⟩
  rw [used]
  omega

end Jsh
