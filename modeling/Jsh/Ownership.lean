import Jsh.FreedCalls

/-!
# Descriptors of a failed parse

Each error exit of the parser closes its own share of what the parse has opened. The
numbers of the descriptors still to close are claimed by the builders of the stages
being parsed, by calls, or by pipes; when `parse_command` gives up it closes what
the calls and pipes of the command claim. A parse that reads a freed call is the
exception: it closes what the fields of that call hold by then, which may be anything,
and the files of the call are lost.
-/

set_option autoImplicit false

namespace Jsh

variable {watched : Descriptor → Prop}

/-- The watched descriptors of a table beyond those of `base` are above 2 and have
claimed numbers. No number of `base` above 2 is claimed. -/
structure Accounted (watched : Descriptor → Prop) (base : List Descriptor) (claimed : List Int) (kernel : Kernel) : Prop where
  kept : ∀ descriptor ∈ base, descriptor ∈ kernel.descriptors
  owned : ∀ descriptor ∈ kernel.descriptors, watched descriptor → descriptor ∈ base ∨
    2 < descriptor.number ∧ descriptor.number ∈ claimed
  apart : ∀ descriptor ∈ base, 2 < descriptor.number → descriptor.number ∉ claimed

/-- Closing claimed descriptors; what is claimed afterwards may leave them out. -/
theorem Accounted.close {base : List Descriptor} {claimed claimed' closed : List Int}
    {kernel kernel' : Kernel} (accounted : Accounted watched base claimed kernel)
    (closes : ∀ descriptor, descriptor ∈ kernel'.descriptors ↔
      descriptor ∈ kernel.descriptors ∧ ¬ (descriptor.number ∈ closed ∧ 2 < descriptor.number))
    (own : ∀ number ∈ closed, 2 < number → number ∈ claimed)
    (rest : ∀ number ∈ claimed, 2 < number → number ∉ closed → number ∈ claimed')
    (fewer : ∀ number ∈ claimed', 2 < number → number ∈ claimed) :
    Accounted watched base claimed' kernel' where
  kept := by
    intro descriptor member
    refine (closes descriptor).mpr ⟨accounted.kept descriptor member, ?_⟩
    rintro ⟨inside, above⟩
    exact accounted.apart descriptor member above (own _ inside above)
  owned := by
    intro descriptor member watch
    obtain ⟨before, opened⟩ := (closes descriptor).mp member
    rcases accounted.owned descriptor before watch with kept | ⟨above, claims⟩
    · exact .inl kept
    · exact .inr ⟨above, rest _ claims above fun inside => opened ⟨inside, above⟩⟩
  apart := fun descriptor member above claims =>
    accounted.apart descriptor member above (fewer _ claims above)

/-- Numbers up to 2 and repetitions do not matter. -/
theorem Accounted.congr {base : List Descriptor} {claimed claimed' : List Int} {kernel : Kernel}
    (accounted : Accounted watched base claimed kernel)
    (same : ∀ number, 2 < number → (number ∈ claimed' ↔ number ∈ claimed)) :
    Accounted watched base claimed' kernel :=
  accounted.close (by simp) (fun _ member => absurd member (List.not_mem_nil))
    (fun number claims above _ => (same number above).mpr claims)
    (fun number claims above => (same number above).mp claims)

theorem Accounted.closeArray {base : List Descriptor} {fds claimed : List Int} {kernel : Kernel}
    (accounted : Accounted watched base (fds ++ claimed) kernel) :
    Accounted watched base claimed (closeUnusedFileDescriptorsFromArray kernel fds) := by
  refine accounted.close (fun _ => mem_closeUnusedFileDescriptorsFromArray)
    (fun _ member _ => List.mem_append_left _ member) ?_
    (fun _ member _ => List.mem_append_right _ member)
  intro number claims _ outside
  exact (List.mem_append.mp claims).resolve_left outside

/-- A new descriptor. -/
theorem Accounted.add {base : List Descriptor} {claimed : List Int} {kernel : Kernel}
    (accounted : Accounted watched base claimed kernel) (kernel' : Kernel) (descriptor : Descriptor)
    (grown : kernel'.descriptors = descriptor :: kernel.descriptors)
    (above : 2 < descriptor.number) (free : descriptor.number ∉ kernel.numbers) :
    Accounted watched base (descriptor.number :: claimed) kernel' where
  kept other member := grown ▸ .tail _ (accounted.kept other member)
  owned := by
    intro other member watch
    rw [grown] at member
    rcases List.mem_cons.mp member with rfl | member
    · exact .inr ⟨above, .head _⟩
    · exact (accounted.owned other member watch).imp_right fun ⟨large, claims⟩ => ⟨large, .tail _ claims⟩
  apart := by
    intro other member large claims
    rcases List.mem_cons.mp claims with same | claims
    · exact free (Kernel.mem_numbers.mpr ⟨other, accounted.kept other member, same⟩)
    · exact accounted.apart other member large claims

/-- The numbers of the ends of pipes. -/
def pipeNumbers (pipes : List (Int × Int)) : List Int := pipes.flatMap fun pipe => [pipe.1, pipe.2]

@[simp] theorem pipeNumbers_append (left right : List (Int × Int)) :
    pipeNumbers (left ++ right) = pipeNumbers left ++ pipeNumbers right := List.flatMap_append

theorem mem_pipeNumbers {pipes : List (Int × Int)} {number : Int} :
    number ∈ pipeNumbers pipes ↔ ∃ pipe ∈ pipes, pipe.1 = number ∨ pipe.2 = number := by
  simp [pipeNumbers, eq_comm]

/-- A descriptor that comes in while a part of a tree is read has a number of its own. -/
theorem Wires.apart {outcomes : FileOutcomes} {state state' : ParserState} {links : List Link}
    {opens : List (CString × OpenMode)} {labels opened : List Descriptor}
    (wires : Wires outcomes state state' links opens labels [] opened)
    {old new : Descriptor} (member : old ∈ state.kernel.descriptors)
    (entered : new ∈ links.flatMap Link.descriptors ++ opened) : old.number ≠ new.number := by
  intro same
  have counted := wires.descriptors
  simp only [List.count_nil, Nat.add_zero] at counted
  have before := List.count_pos_iff.mpr member
  have after := List.count_pos_iff.mpr entered
  rw [List.count_append] at after
  have presentOld : old ∈ state'.kernel.descriptors :=
    List.count_pos_iff.mp (by have := counted old; omega)
  have presentNew : new ∈ state'.kernel.descriptors :=
    List.count_pos_iff.mp (by have := counted new; omega)
  have equal : old = new := List.inj_on_of_nodup_map wires.valid.distinct presentOld presentNew same
  subst equal
  have once := wires.valid.count_le_one old
  have := counted old
  omega

/-- The descriptors that come in have different numbers. -/
theorem Wires.distinct {outcomes : FileOutcomes} {state state' : ParserState} {links : List Link}
    {opens : List (CString × OpenMode)} {labels opened : List Descriptor}
    (wires : Wires outcomes state state' links opens labels [] opened) :
    ((links.flatMap Link.descriptors ++ opened).map (·.number)).Nodup := by
  have below : (links.flatMap Link.descriptors ++ opened).Subperm state'.kernel.descriptors := by
    refine List.subperm_ext_iff.mpr fun descriptor _ => ?_
    have counted := wires.descriptors descriptor
    rw [List.count_nil, Nat.add_zero] at counted
    rw [List.count_append]
    omega
  obtain ⟨entered, perm, sublist⟩ := below
  exact (perm.map _).nodup_iff.mp (wires.valid.distinct.sublist (sublist.map _))

theorem mem_link_descriptors {links : List Link} {number : Int} :
    number ∈ pipeNumbers (links.map (·.ends)) ↔
      ∃ descriptor ∈ links.flatMap Link.descriptors, descriptor.number = number := by
  simp only [mem_pipeNumbers, List.mem_map, List.mem_flatMap, Link.descriptors]
  constructor
  · rintro ⟨_, ⟨link, member, rfl⟩, rfl | rfl⟩
    · exact ⟨_, ⟨link, member, .tail _ (.head _)⟩, rfl⟩
    · exact ⟨_, ⟨link, member, .head _⟩, rfl⟩
  · rintro ⟨descriptor, ⟨link, member, inside⟩, rfl⟩
    refine ⟨_, ⟨link, member, rfl⟩, ?_⟩
    simp only [List.mem_cons, List.not_mem_nil, or_false] at inside
    rcases inside with rfl | rfl
    · exact .inr rfl
    · exact .inl rfl

/-- What a successful part of a parse has opened. -/
theorem Wires.accounted {outcomes : FileOutcomes} {state state' : ParserState} {links : List Link}
    {opens : List (CString × OpenMode)} {labels opened base : List Descriptor} {claimed : List Int}
    (wires : Wires outcomes state state' links opens labels [] opened)
    (accounted : Accounted watched base claimed state.kernel) :
    Accounted watched base (pipeNumbers (links.map (·.ends)) ++ opened.map (·.number) ++ claimed)
      state'.kernel := by
  have counted := wires.descriptors
  simp only [List.count_nil, Nat.add_zero] at counted
  constructor
  case kept =>
    intro descriptor member
    have before := List.count_pos_iff.mpr (accounted.kept descriptor member)
    exact List.count_pos_iff.mp (by have := counted descriptor; omega)
  case owned =>
    intro descriptor member watch
    have after := List.count_pos_iff.mpr member
    have sources : descriptor ∈ state.kernel.descriptors ∨
        descriptor ∈ links.flatMap Link.descriptors ∨ descriptor ∈ opened := by
      rw [← List.count_pos_iff, ← List.count_pos_iff, ← List.count_pos_iff]
      have := counted descriptor
      omega
    rcases sources with old | link | file
    · exact (accounted.owned descriptor old watch).imp_right fun ⟨above, claims⟩ =>
        ⟨above, List.mem_append_right _ claims⟩
    · refine .inr ⟨?_, List.mem_append_left _ (List.mem_append_left _
        (mem_link_descriptors.mpr ⟨descriptor, link, rfl⟩))⟩
      obtain ⟨label, labelled, inside⟩ := List.mem_flatMap.mp link
      simp only [Link.descriptors, List.mem_cons, List.not_mem_nil, or_false] at inside
      rcases inside with rfl | rfl
      · exact (wires.endsAbove label labelled).2
      · exact (wires.endsAbove label labelled).1
    · exact .inr ⟨wires.openedAbove descriptor file,
        List.mem_append_left _ (List.mem_append_right _ (List.mem_map_of_mem file))⟩
  case apart =>
    intro descriptor member above claims
    have old := accounted.kept descriptor member
    rcases List.mem_append.mp claims with new | claims
    · rcases List.mem_append.mp new with link | file
      · obtain ⟨entered, inside, same⟩ := mem_link_descriptors.mp link
        exact wires.apart old (List.mem_append_left _ inside) same.symm
      · obtain ⟨entered, inside, same⟩ := List.mem_map.mp file
        exact wires.apart old (List.mem_append_right _ inside) same.symm
    · exact accounted.apart descriptor member above claims

/-! ## The descriptors of the calls of a tree -/

def CommandCall.fds (call : CommandCall) : List Int := [call.stdin, call.stdout, call.stderr]

/-- A number that is no end of a link stands in a call for a redirection, if anywhere. -/
theorem stageCall_count_fds {number : Int} (above : 2 < number) (name : Word)
    (items : Items Labels.wired) (commandString : CString) {input output : Option Link}
    (notInput : ∀ link ∈ input, link.readEnd ≠ number)
    (notOutput : ∀ link ∈ output, link.writeEnd ≠ number) :
    (stageCall name items commandString input output).fds.count number =
      (items.redirected.map (·.number)).count number := by
  have stream : ∀ (chosen : Option Descriptor) (linked : Option Int) (standard : Int),
      (∀ fd ∈ linked, fd ≠ number) → standard ≠ number →
      [((chosen.map (·.number)).or linked).getD standard].count number =
        (chosen.toList.map (·.number)).count number := by
    intro chosen linked standard notLinked notStandard
    cases chosen with
    | some descriptor => rfl
    | none =>
        cases linked with
        | none => simp [notStandard]
        | some fd => simp [notLinked fd rfl]
  have stdin := stream (items.lastRedirection .stdin) (input.map (·.readEnd)) stdinFileno
    (by simpa using notInput) (by simp only [stdinFileno]; omega)
  have stdout := stream (items.lastRedirection .stdout) (output.map (·.writeEnd)) stdoutFileno
    (by simpa using notOutput) (by simp only [stdoutFileno]; omega)
  have stderr := stream (items.lastRedirection .stderr) none stderrFileno (by simp)
    (by simp only [stderrFileno]; omega)
  rw [Option.or_none] at stderr
  simp only [Items.redirected, heldDescriptors, List.map_append, List.count_append, ← stdin,
    ← stdout, ← stderr]
  simp only [← List.count_append]
  rfl

mutual

theorem Pipeline.count_fds {number : Int} (above : 2 < number) (commandString : CString)
    {input output : Option Link} (notInput : ∀ link ∈ input, link.readEnd ≠ number)
    (notOutput : ∀ link ∈ output, link.writeEnd ≠ number) :
    ∀ tree : Pipeline Labels.wired, number ∉ pipeNumbers (tree.links.map (·.ends)) →
      ((tree.calls commandString input output).flatMap CommandCall.fds).count number =
        (tree.files.map (·.number)).count number
  | .mk name items .last, free => by
      simp only [Pipeline.links, Next.links, List.append_nil] at free
      have own := stageCall_count_fds above name items commandString notInput notOutput
      simp only [Pipeline.calls, Next.calls, Next.link, Option.none_or, Pipeline.files, Next.files,
        List.append_nil, List.flatMap_append, List.flatMap_singleton, List.map_append,
        List.count_append, own, Items.count_fds above items free]
  | .mk name items (.pipe link rest), free => by
      simp only [Pipeline.links, Next.links, List.map_append, pipeNumbers_append, List.mem_append,
        not_or] at free
      obtain ⟨freeItems, freeRest, freeLink⟩ := free
      have ends : link.readEnd ≠ number ∧ link.writeEnd ≠ number := by
        simpa [pipeNumbers, Link.ends, eq_comm] using freeLink
      have own := stageCall_count_fds above name items commandString notInput
        (show ∀ other ∈ some link, other.writeEnd ≠ number from by simpa using ends.2)
      have following := Pipeline.count_fds above (joinStrings rest.words [' '])
        (show ∀ other ∈ some link, other.readEnd ≠ number from by simpa using ends.1) notOutput
        rest freeRest
      simp only [Pipeline.calls, Next.calls, Next.link, Option.some_or, Pipeline.files, Next.files,
        List.flatMap_append, List.flatMap_singleton, List.map_append, List.count_append, own,
        following, Items.count_fds above items freeItems]

theorem Items.count_fds {number : Int} (above : 2 < number) :
    ∀ items : Items Labels.wired, number ∉ pipeNumbers (items.links.map (·.ends)) →
      (items.calls.flatMap CommandCall.fds).count number =
        (items.files.map (·.number)).count number
  | .nil, _ => rfl
  | .word _ rest, free => Items.count_fds above rest free
  | .redirection _ _ _ rest, free => Items.count_fds above rest free
  | .substitution link body rest, free => by
      simp only [Items.links, List.cons_append, List.map_cons, List.map_append] at free
      have split : link.readEnd ≠ number ∧ link.writeEnd ≠ number ∧
          number ∉ pipeNumbers (body.links.map (·.ends)) ∧
          number ∉ pipeNumbers (rest.links.map (·.ends)) := by
        simp only [pipeNumbers, List.flatMap_cons, List.flatMap_append, Link.ends, List.mem_append,
          List.mem_cons, List.not_mem_nil, or_false, not_or] at free
        exact ⟨Ne.symm free.1.1, Ne.symm free.1.2, free.2.1, free.2.2⟩
      obtain ⟨_, writeEnd, freeBody, freeRest⟩ := split
      have inner := Pipeline.count_fds above (joinStrings body.words [' '])
        (show ∀ other ∈ (none : Option Link), other.readEnd ≠ number from by simp)
        (show ∀ other ∈ some link, other.writeEnd ≠ number from by simpa using writeEnd) body
        freeBody
      simp only [Items.calls, Items.files, List.flatMap_append, List.map_append, List.count_append,
        inner, Items.count_fds above rest freeRest]

end

/-- The number of a tree's call is an end of one of its links or that of a file, and the
number of each of its files stands in a call. -/
theorem Pipeline.mem_fds_iff {number : Int} (above : 2 < number) (commandString : CString)
    (tree : Pipeline Labels.wired) {input output : Option Link}
    (notInput : ∀ link ∈ input, link.readEnd ≠ number)
    (notOutput : ∀ link ∈ output, link.writeEnd ≠ number)
    (free : number ∉ pipeNumbers (tree.links.map (·.ends))) :
    number ∈ (tree.calls commandString input output).flatMap CommandCall.fds ↔
      number ∈ tree.files.map (·.number) := by
  rw [← List.count_pos_iff, ← List.count_pos_iff,
    Pipeline.count_fds above commandString notInput notOutput tree free]

theorem Items.lastRedirection_subset : ∀ (items : Items Labels.wired) (stream : Stream),
    (items.lastRedirection stream).toList ⊆ items.redirections
  | .nil, _ => by simp [Items.lastRedirection]
  | .word _ rest, stream => rest.lastRedirection_subset stream
  | .substitution _ body rest, stream => fun _ member =>
      List.mem_append_right _ (rest.lastRedirection_subset stream member)
  | .redirection symbol _ label rest, stream => by
      intro descriptor member
      simp only [Items.lastRedirection, Option.mem_toList, Option.or_eq_some_iff] at member
      rcases member with later | ⟨_, here⟩
      · exact .tail _ (rest.lastRedirection_subset stream (Option.mem_toList.mpr later))
      · split at here
        · cases here
          exact .head _
        · cases here

theorem Items.redirected_subset (items : Items Labels.wired) :
    items.redirected ⊆ items.redirections := by
  intro descriptor member
  simp only [Items.redirected, heldDescriptors, List.mem_append] at member
  rcases member with (member | member) | member <;>
    exact items.lastRedirection_subset _ member

mutual

theorem Pipeline.files_subset : ∀ tree : Pipeline Labels.wired, tree.files ⊆ tree.redirections
  | .mk name items .last => by
      have own := items.redirected_subset
      have nested := items.files_subset
      intro descriptor member
      simp only [Pipeline.files, Next.files, List.append_nil, List.mem_append] at member
      exact List.mem_append_left _ (member.elim (fun inside => nested inside) fun held => own held)
  | .mk name items (.pipe link rest) => by
      have own := items.redirected_subset
      have nested := items.files_subset
      have following := rest.files_subset
      intro descriptor member
      simp only [Pipeline.files, Next.files, List.mem_append] at member
      rcases member with (inside | later) | held
      · exact List.mem_append_left _ (nested inside)
      · exact List.mem_append_right _ (following later)
      · exact List.mem_append_left _ (own held)

theorem Items.files_subset : ∀ items : Items Labels.wired, items.files ⊆ items.redirections
  | .nil => fun _ member => member
  | .word _ rest => Items.files_subset rest
  | .redirection _ _ _ rest => fun _ member => .tail _ (Items.files_subset rest member)
  | .substitution _ body rest => fun _ member =>
      (List.mem_append.mp member).elim
        (fun inside => List.mem_append_left _ (Pipeline.files_subset body inside))
        fun later => List.mem_append_right _ (Items.files_subset rest later)

end

/-! ## Claims of a state -/

/-- What the pipes of the command, its calls, and the first call parsed claim. -/
def ParserState.claimed (state : ParserState) : List Int :=
  pipeNumbers state.openPipes ++
    (state.commandCalls ++ state.lastParsedCommandCall.toList).flatMap fun ref =>
      (state.call ref).fds

/-- The descriptors of a state beyond those of `base` are claimed by the state or by
`extra`, and no pipe has taken a standard descriptor. -/
structure Accounts (watched : Descriptor → Prop) (base : List Descriptor) (extra : List Int) (state : ParserState) : Prop where
  accounted : Accounted watched base (extra ++ state.claimed) state.kernel
  pipesAbove : ∀ pipe ∈ state.openPipes, 2 < pipe.1 ∧ 2 < pipe.2
  valid : state.kernel.Valid

/-- The calls of the command have been allocated. -/
def ParserState.Listed (state : ParserState) : Prop :=
  ∀ ref ∈ state.commandCalls, ref < state.heap.length

theorem mem_listedCalls {insideSubstitution : Bool} {first count : Nat} {last ref : CallRef} :
    ref ∈ listedCalls insideSubstitution first count last ↔
      (first ≤ ref ∧ ref < first + count) ∧ (insideSubstitution = true ∨ ref ≠ last) := by
  simp [listedCalls, List.mem_range'_1]

/-- Listing the call a pipe symbol leads to. -/
theorem mem_listPipped (state : ParserState) (insideSubstitution : Bool) (call other : CallRef) :
    other ∈ (state.listPipped insideSubstitution call).commandCalls ++
        (state.listPipped insideSubstitution call).lastParsedCommandCall.toList ↔
      other ∈ state.commandCalls ++ state.lastParsedCommandCall.toList ∨ other = call := by
  simp only [ParserState.listPipped, List.mem_append]
  split
  · simp only [List.mem_singleton]
    tauto
  · next unlisted =>
    have last : state.lastParsedCommandCall = some call := by
      by_contra different
      exact unlisted (.inl different)
    simp [last, eq_comm]

section Success

variable {outcomes : FileOutcomes} {commandString : CString}
  {insideSubstitution insidePipeline : Bool} {state state' : ParserState} {ref : CallRef}
  {tree : Pipeline Labels.wired}

/-- The call of an allocated reference is that of the heap before, or one of the new calls. -/
theorem call_of_heap {calls : List CommandCall} (heap : state'.heap = state.heap ++ calls) :
    (∀ ref < state.heap.length, state'.call ref = state.call ref) ∧
      ∀ offset (bound : offset < calls.length),
        state'.call (state.heap.length + offset) = calls[offset] := by
  constructor
  · intro ref bound
    simp only [ParserState.call, heap, List.getD_eq_getElem?_getD]
    rw [List.getElem?_append_left bound]
  · intro offset bound
    simp only [ParserState.call, heap, List.getD_eq_getElem?_getD]
    rw [List.getElem?_append_right (Nat.le_add_right _ _), Nat.add_sub_cancel_left,
      List.getElem?_eq_getElem bound, Option.getD_some]

/-- References to all the new calls and to the old ones claim what both claim. -/
theorem mem_flatMap_fds {calls : List CommandCall} {refs refs' : List CallRef} {number : Int}
    (heap : state'.heap = state.heap ++ calls) (old : ∀ ref ∈ refs, ref < state.heap.length)
    (all : ∀ ref, ref ∈ refs' ↔ ref ∈ refs ∨
      state.heap.length ≤ ref ∧ ref < state.heap.length + calls.length) :
    number ∈ refs'.flatMap (fun ref => (state'.call ref).fds) ↔
      number ∈ refs.flatMap (fun ref => (state.call ref).fds) ∨
        number ∈ calls.flatMap CommandCall.fds := by
  obtain ⟨before, new⟩ := call_of_heap heap
  simp only [List.mem_flatMap]
  constructor
  · rintro ⟨ref, member, inside⟩
    rcases (all ref).mp member with member | ⟨low, high⟩
    · exact .inl ⟨ref, member, before ref (old ref member) ▸ inside⟩
    · obtain ⟨offset, rfl⟩ := Nat.exists_eq_add_of_le low
      have bound : offset < calls.length := Nat.lt_of_add_lt_add_left high
      exact .inr ⟨_, List.getElem_mem bound, new offset bound ▸ inside⟩
  · rintro (⟨ref, member, inside⟩ | ⟨call, member, inside⟩)
    · exact ⟨ref, (all ref).mpr (.inl member), (before ref (old ref member)).symm ▸ inside⟩
    · obtain ⟨offset, bound, rfl⟩ := List.getElem_of_mem member
      exact ⟨state.heap.length + offset,
        (all _).mpr (.inr ⟨Nat.le_add_right _ _, Nat.add_lt_add_left bound _⟩),
        (new offset bound).symm ▸ inside⟩

/-- What is claimed after a successful part of a parse whose calls are those of the command,
that of the first call parsed, and those of `pending`. -/
theorem Wires.mem_claimed {links : List Link} {opens : List (CString × OpenMode)}
    {labels files : List Descriptor} {calls : List CommandCall}
    (wires : Wires outcomes state state' links opens labels [] files)
    (heap : state'.heap = state.heap ++ calls) (pending : List CallRef)
    (all : ∀ other, other ∈ pending ++ (state'.commandCalls ++ state'.lastParsedCommandCall.toList) ↔
      other ∈ state.commandCalls ∨
        state.heap.length ≤ other ∧ other < state.heap.length + calls.length)
    (claims : ∀ number, 2 < number → number ∉ pipeNumbers (links.map (·.ends)) →
      (number ∈ calls.flatMap CommandCall.fds ↔ number ∈ files.map (·.number)))
    (noLast : state.lastParsedCommandCall = none) (listed : state.Listed) {number : Int}
    (above : 2 < number) :
    number ∈ pending.flatMap (fun ref => (state'.call ref).fds) ++ state'.claimed ↔
      number ∈ pipeNumbers (links.map (·.ends)) ++ files.map (·.number) ++ state.claimed := by
  have refs : number ∈ List.flatMap _ _ ↔ _ := mem_flatMap_fds heap listed all
  rw [List.flatMap_append, List.mem_append] at refs
  simp only [List.mem_append, ParserState.claimed, noLast, Option.toList_none, List.append_nil,
    wires.openPipes, pipeNumbers_append]
  by_cases linked : number ∈ pipeNumbers (links.map (·.ends))
  · simp only [linked, true_or, or_true]
  · rw [claims number above linked] at refs
    tauto

/-- Everything that is open after a successful part of a parse is accounted for. -/
theorem Wires.accounts_claimed {links : List Link} {opens : List (CString × OpenMode)}
    {labels files base : List Descriptor} {extra : List Int}
    (wires : Wires outcomes state state' links opens labels [] files) (pending : List Int)
    (claimed : ∀ number, 2 < number → (number ∈ pending ++ state'.claimed ↔
      number ∈ pipeNumbers (links.map (·.ends)) ++ files.map (·.number) ++ state.claimed))
    (accounts : Accounts watched base extra state) :
    Accounts watched base (pending ++ extra) state' := by
  refine ⟨(wires.accounted accounts.accounted).congr fun number above => ?_, ?_, wires.valid⟩
  · have same := claimed number above
    simp only [List.mem_append] at same ⊢
    tauto
  · intro pipe member
    rw [wires.openPipes] at member
    rcases List.mem_append.mp member with old | new
    · exact accounts.pipesAbove pipe old
    · obtain ⟨link, labelled, rfl⟩ := List.mem_map.mp new
      exact wires.endsAbove link labelled

/-- A call that has been read and the state together claim what was claimed before and what
the tree has opened. -/
theorem CallRead.mem_claimed
    (read : CallRead outcomes commandString insideSubstitution insidePipeline state state' ref tree)
    (noLast : state.lastParsedCommandCall = none) (listed : state.Listed) {number : Int}
    (above : 2 < number) :
    number ∈ (state'.call ref).fds ++ state'.claimed ↔
      number ∈ pipeNumbers (tree.links.map (·.ends)) ++ tree.files.map (·.number) ++
        state.claimed := by
  have positive := tree.size_pos
  have inside := tree.lastPosition_lt_size
  have length := tree.calls_length commandString none none
  have all : ∀ other : CallRef,
      other ∈ [ref] ++ (state'.commandCalls ++ state'.lastParsedCommandCall.toList) ↔
        other ∈ state.commandCalls ∨ state.heap.length ≤ other ∧
          other < state.heap.length + (tree.calls commandString none none).length := by
    intro other
    rw [read.listed, read.globals.lastCall, read.ref, length]
    simp only [List.singleton_append, List.mem_cons, List.mem_append, mem_listedCalls]
    cases insideSubstitution <;> simp <;> grind
  simpa using read.wires.mem_claimed read.heap [ref] all
    (fun number above free => tree.mem_fds_iff above commandString (by simp) (by simp) free)
    noLast listed above

theorem CallRead.accounts
    (read : CallRead outcomes commandString insideSubstitution insidePipeline state state' ref tree)
    (noLast : state.lastParsedCommandCall = none) (listed : state.Listed) {base : List Descriptor}
    {extra : List Int} (accounts : Accounts watched base extra state) :
    Accounts watched base ((state'.call ref).fds ++ extra) state' :=
  read.wires.accounts_claimed _ (fun _ above => read.mem_claimed noLast listed above) accounts

/-- The same after the pipeline has been linked to the stage before it. -/
theorem CallRead.accounts_linked {kernel : Kernel} {fd : Int × Int}
    (read : CallRead outcomes commandString insideSubstitution true state state' ref tree)
    (created : state'.kernel.pipe outcomes = (some fd, kernel))
    (noLast : state.lastParsedCommandCall = none) (listed : state.Listed) {base : List Descriptor}
    {extra : List Int} (accounts : Accounts watched base extra state) :
    Accounts watched base extra ((state'.linked kernel fd ref).listPipped insideSubstitution ref) := by
  let linked := (state'.linked kernel fd ref).listPipped insideSubstitution ref
  have positive := tree.size_pos
  have inside := tree.lastPosition_lt_size
  have length := tree.calls_length commandString (some (state'.nextLink fd)) none
  have all : ∀ other : CallRef,
      other ∈ [] ++ (linked.commandCalls ++ linked.lastParsedCommandCall.toList) ↔
        other ∈ state.commandCalls ∨ state.heap.length ≤ other ∧ other < state.heap.length +
          (tree.calls commandString (some (state'.nextLink fd)) none).length := by
    intro other
    rw [List.nil_append, mem_listPipped]
    simp only [ParserState.linked]
    rw [read.listed, read.globals.lastCall, read.ref, length]
    simp only [List.mem_append, mem_listedCalls]
    cases insideSubstitution <;> simp <;> grind
  have wires : Wires outcomes state linked (tree.links ++ [state'.nextLink fd]) tree.opens
      tree.redirections [] tree.files :=
    (read.wires_linked created).ofSame ⟨rfl, rfl, rfl⟩ ⟨rfl, rfl, rfl⟩
  refine wires.accounts_claimed [] (fun number above => wires.mem_claimed
    (read.heap_linked kernel fd) [] all ?_ noLast listed above) accounts
  intro number above free
  simp only [List.map_append, pipeNumbers_append, List.mem_append, not_or] at free
  have readEnd : (state'.nextLink fd).readEnd ≠ number := by
    have ends := free.2
    simp only [List.map_cons, List.map_nil, pipeNumbers, Link.ends, List.flatMap_cons,
      List.flatMap_nil, List.append_nil, List.mem_cons, not_or] at ends
    exact Ne.symm ends.1
  exact tree.mem_fds_iff above commandString (by simpa using readEnd) (by simp) free.1

/-- A substitution has added its calls to those of the command. -/
theorem SubstitutionRead.mem_claimed {builder builder' : CommandCallBuilder} {rest : List CString}
    {path : CString} {position : Nat} {link : Link} {body : Pipeline Labels.wired}
    (read : SubstitutionRead outcomes builder builder' rest path position state state' link body)
    (noLast : state.lastParsedCommandCall = none) (listed : state.Listed) {number : Int}
    (above : 2 < number) :
    number ∈ state'.claimed ↔
      number ∈ pipeNumbers ((link :: body.links).map (·.ends)) ++ body.files.map (·.number) ++
        state.claimed := by
  have length := body.calls_length (joinStrings body.words [' ']) none (some link)
  have all : ∀ other : CallRef,
      other ∈ [] ++ (state'.commandCalls ++ state'.lastParsedCommandCall.toList) ↔
        other ∈ state.commandCalls ∨ state.heap.length ≤ other ∧ other < state.heap.length +
          (body.calls (joinStrings body.words [' ']) none (some link)).length := by
    intro other
    rw [read.listed, read.lastCall, length]
    simp [List.mem_range'_1]
  refine read.wires.mem_claimed read.heap [] all ?_ noLast listed above
  intro number above free
  simp only [List.map_cons, pipeNumbers, List.flatMap_cons, List.mem_append, Link.ends,
    List.mem_cons, List.not_mem_nil, or_false, not_or] at free
  exact body.mem_fds_iff above _ (by simp) (by simpa using Ne.symm free.1.2) free.2

theorem SubstitutionRead.accounts {builder builder' : CommandCallBuilder} {rest : List CString}
    {path : CString} {position : Nat} {link : Link} {body : Pipeline Labels.wired}
    (read : SubstitutionRead outcomes builder builder' rest path position state state' link body)
    (noLast : state.lastParsedCommandCall = none) (listed : state.Listed) {base : List Descriptor}
    {extra : List Int} (accounts : Accounts watched base extra state) :
    Accounts watched base extra state' :=
  read.wires.accounts_claimed [] (fun _ above => read.mem_claimed noLast listed above)
    accounts

/-- The pipe of a substitution is claimed by the command. -/
theorem ParserState.mem_claimed_substituting (state : ParserState) (kernel : Kernel)
    (fd : Int × Int) (number : Int) :
    number ∈ (state.substituting kernel fd).claimed ↔
      number ∈ pipeNumbers ([state.nextLink fd].map (·.ends)) ++ [].map Descriptor.number ++
        state.claimed := by
  simp only [ParserState.claimed, ParserState.substituting, pipeNumbers_append, List.mem_append,
    List.map_cons, List.map_nil, List.not_mem_nil, or_false]
  constructor
  · rintro ((old | new) | call)
    · exact .inr (.inl old)
    · exact .inl new
    · exact .inr (.inr call)
  · rintro (new | old | call)
    · exact .inl (.inr new)
    · exact .inl (.inl old)
    · exact .inr call

theorem wires_substituting {kernel : Kernel} {fd : Int × Int} (valid : state.kernel.Valid)
    (created : state.kernel.pipe outcomes = (some fd, kernel)) :
    Wires outcomes state (state.substituting kernel fd) [state.nextLink fd] [] [] [] [] :=
  (wires_pipe valid created).ofSame ⟨rfl, rfl, rfl⟩ ⟨rfl, rfl, rfl⟩

/-- The call of a stage whose pipe cannot be made is lost, with its files alone. -/
theorem CallRead.accounts_lost
    (read : CallRead outcomes commandString insideSubstitution insidePipeline state state' ref tree)
    (noFile : ∀ descriptor, watched descriptor → ∀ serial, descriptor.file ≠ .file serial)
    (noLast : state.lastParsedCommandCall = none) (listed : state.Listed) {base : List Descriptor}
    {extra : List Int} (accounts : Accounts watched base extra state) :
    Accounts watched base extra state' := by
  obtain ⟨⟨kept, owned, apart⟩, above, valid⟩ := read.accounts noLast listed accounts
  rw [List.append_assoc] at owned apart
  refine ⟨⟨kept, fun descriptor member watch => ?_, fun descriptor member large claims =>
    apart descriptor member large (List.mem_append_right _ claims)⟩, above, valid⟩
  rcases owned descriptor member watch with old | ⟨large, claims⟩
  · exact .inl old
  refine .inr ⟨large, ?_⟩
  rcases List.mem_append.mp claims with lost | kept
  case inr => exact kept
  by_cases linked : descriptor.number ∈ pipeNumbers (tree.links.map (·.ends))
  · refine List.mem_append_right _ (List.mem_append_left _ ?_)
    rw [read.wires.openPipes, pipeNumbers_append]
    exact List.mem_append_right _ linked
  · have size := tree.calls_length commandString none none
    have positive := tree.size_pos
    have bound : tree.size - 1 < (tree.calls commandString none none).length := by omega
    have own : descriptor.number ∈
        (tree.calls commandString none none).flatMap CommandCall.fds := by
      rw [read.ref, (call_of_heap read.heap).2 _ bound] at lost
      exact List.mem_flatMap.mpr ⟨_, List.getElem_mem bound, lost⟩
    rw [tree.mem_fds_iff large commandString (by simp) (by simp) linked] at own
    obtain ⟨file, opened, same⟩ := List.mem_map.mp own
    have counted := read.wires.descriptors file
    have entered := List.count_pos_iff.mpr opened
    have present : file ∈ state'.kernel.descriptors :=
      List.count_pos_iff.mp (by simp only [List.count_nil] at counted; omega)
    obtain rfl := List.inj_on_of_nodup_map read.wires.valid.distinct present member same
    have labelled := List.mem_map_of_mem (f := fun descriptor : Descriptor => descriptor.file)
      (tree.files_subset opened)
    rw [read.wires.files] at labelled
    obtain ⟨serial, _, isFile⟩ := List.mem_map.mp labelled
    exact absurd isFile.symm (noFile file watch serial)

/-- The call of the first stage is the last one built. -/
theorem CallRead.call_first {name : Word} {items : Items Labels.wired} {next : Next Labels.wired}
    (read : CallRead outcomes commandString insideSubstitution insidePipeline state state' ref
      (.mk name items next)) :
    state'.call ref = stageCall name items commandString none next.link := by
  have bound : (Pipeline.mk name items next).size - 1 <
      ((Pipeline.mk name items next).calls commandString none none).length := by
    simp [Pipeline.size]
  have length : (Pipeline.mk name items next).size - 1 =
      (items.calls ++ next.calls none).length := by
    simp [Pipeline.size]
  rw [read.ref, (call_of_heap read.heap).2 _ bound]
  simp only [Pipeline.calls, Option.or_none]
  exact List.getElem_concat_length length _

/-- Without redirections the first stage holds no descriptor but an end of a pipe. -/
theorem CallRead.fds_first
    (read : CallRead outcomes commandString insideSubstitution insidePipeline state state' ref tree)
    (unredirected : tree.firstItems.redirects = false) {number : Int}
    (inside : number ∈ (state'.call ref).fds) (above : 2 < number) :
    number ∈ pipeNumbers state'.openPipes := by
  cases tree with
  | mk name items next =>
      have free := (Items.lastRedirection_eq_none_iff items).mpr unredirected
      rw [read.call_first] at inside
      simp only [CommandCall.fds, stageCall, free, Option.map_none, Option.none_or, Option.getD_none,
        List.mem_cons, List.not_mem_nil, or_false, stdinFileno, stderrFileno] at inside
      cases next with
      | last =>
          simp only [Next.link, Option.map_none, Option.getD_none, stdoutFileno] at inside
          omega
      | pipe link rest =>
          simp only [Next.link, Option.map_some, Option.getD_some] at inside
          have same : number = link.writeEnd := by omega
          rw [read.wires.openPipes, pipeNumbers_append]
          refine List.mem_append_right _ (mem_pipeNumbers.mpr ⟨link.ends, ?_, .inr same.symm⟩)
          exact List.mem_map_of_mem (by simp [Pipeline.links, Next.links])

theorem SubstitutionRead.allocated {builder builder' : CommandCallBuilder} {rest : List CString}
    {path : CString} {position : Nat} {link : Link} {body : Pipeline Labels.wired}
    (read : SubstitutionRead outcomes builder builder' rest path position state state' link body)
    (listed' : state.Listed) : state'.Listed := by
  intro other member
  rw [read.heap, List.length_append, body.calls_length]
  rw [read.listed, List.mem_append, List.mem_range'_1] at member
  rcases member with old | new
  · exact Nat.lt_of_lt_of_le (listed' other old) (Nat.le_add_right _ _)
  · exact new.2

end Success

/-! ## Error exits

A stage whose pipe cannot be made loses the files of the pipeline to its right. What
is watched is either no file, or there is no such failure. -/

def Complete (watched : Descriptor → Prop) (outcomes : FileOutcomes) : Prop :=
  (∀ serial, outcomes.pipeSucceeds serial = true) ∨
    ∀ descriptor, watched descriptor → ∀ serial, descriptor.file ≠ .file serial

/-- No closing of the descriptors of a freed call reaches the number. -/
def Untouched (outcomes : FileOutcomes) (number : Int) : Prop :=
  2 < number → ∀ ref, number ∉ (outcomes.freed ref).toList

/-- What is left once the descriptors of a freed call have been closed, whatever its
fields hold: some of the descriptors of `base` may be gone, and files of the call's own
may have stayed. -/
def Spilled (watched : Descriptor → Prop) (outcomes : FileOutcomes) (own : Bool)
    (base : List Descriptor) (extra : List Int) (state : ParserState) : Prop :=
  ∃ kept ⊆ base, (∀ descriptor ∈ base, Untouched outcomes descriptor.number → descriptor ∈ kept) ∧
    Accounts (fun descriptor => watched descriptor ∧ own = false ∧ descriptor ∉ base) kept extra
      state

/-- What an error exit leaves: everything is accounted for, unless a freed call has been
read. -/
def Leaves (watched : Descriptor → Prop) (outcomes : FileOutcomes) (reads : Bool → Prop)
    (base : List Descriptor) (extra : List Int) (state : ParserState) : Prop :=
  Accounts watched base extra state ∨ ∃ own, reads own ∧ Spilled watched outcomes own base extra state

def CallAccounts (watched : Descriptor → Prop) (outcomes : FileOutcomes) (commandString : CString)
    (insideSubstitution insidePipeline : Bool) (state : ParserState) : Prop :=
  ∀ base extra state', Ready insideSubstitution state → state.Listed →
    Accounts watched base extra state →
    parseCommandCall outcomes commandString insideSubstitution insidePipeline state =
      (none, state') →
    Leaves watched outcomes (ReadsFreed outcomes state (words commandSeparator commandString)) base
      extra state'

def TokensAccount (watched : Descriptor → Prop) (outcomes : FileOutcomes) (context : CallContext)
    (builder : CommandCallBuilder) (before : List (Option CString)) (rest : List CString)
    (state : ParserState) : Prop :=
  ∀ base extra state', Ready context.insideSubstitution state → state.Listed →
    (∀ token ∈ rest, token ≠ [] ∧ ' ' ∉ token) →
    Accounts watched base (builder.fds.toList ++ extra) state →
    parseTokens outcomes context builder before rest state = (none, state') →
    Leaves watched outcomes (TokensReadFreed outcomes state
      (decide (builder.fds.stdout ≠ uninitializedFd)) rest) base extra state'

def SubstitutionAccounts (watched : Descriptor → Prop) (outcomes : FileOutcomes)
    (builder : CommandCallBuilder) (rest : List CString) (state : ParserState) : Prop :=
  ∀ base extra state', state.kernel.Valid → state.lastParsedCommandCall = none → state.Listed →
    (∀ token ∈ rest, token ≠ [] ∧ ' ' ∉ token) →
    Accounts watched base extra state →
    parseCommandSubstitution outcomes builder rest state = (none, state') →
    ∀ redirected, Leaves watched outcomes (TokensReadFreed outcomes state redirected
      (commandSubstitutionStart :: rest)) base extra state'

section Steps

variable {outcomes : FileOutcomes} {context : CallContext} {builder : CommandCallBuilder}
  {before : List (Option CString)} {rest : List CString} {state : ParserState}

/-- The `error` exit of a stage closes what its builder claims. -/
theorem Accounts.abandon {base : List Descriptor} {extra : List Int} {ref : Option CallRef}
    {state' : ParserState}
    (accounts : Accounts watched base (builder.fds.toList ++ extra) state)
    (abandoned : abandonCommandCall builder state = (ref, state')) :
    Accounts watched base extra state' := by
  obtain ⟨_, rfl⟩ := Prod.mk.inj abandoned
  have accounted := accounts.accounted
  rw [List.append_assoc] at accounted
  exact ⟨accounted.closeArray, accounts.pipesAbove, accounts.valid.closeArray _⟩

theorem Accounts.refuse {base : List Descriptor} {extra : List Int} {ref : Option CallRef}
    {message : CString} {state' : ParserState}
    (accounts : Accounts watched base (builder.fds.toList ++ extra) state)
    (refused : abandonCommandCall builder (state.report message) = (ref, state')) :
    Accounts watched base extra state' :=
  have reported : Accounts watched base (builder.fds.toList ++ extra) (state.report message) :=
    ⟨accounts.accounted, accounts.pipesAbove, accounts.valid⟩
  reported.abandon refused

theorem Leaves.mono {reads reads' : Bool → Prop} {base : List Descriptor} {extra : List Int}
    (leaves : Leaves watched outcomes reads base extra state)
    (more : ∀ own, reads own → reads' own) :
    Leaves watched outcomes reads' base extra state :=
  leaves.imp_right fun ⟨own, read, spilled⟩ => ⟨own, more own read, spilled⟩

theorem Leaves.refuse {reads : Bool → Prop} {base : List Descriptor} {extra : List Int}
    {ref : Option CallRef} {message : CString} {state' : ParserState}
    (leaves : Leaves watched outcomes reads base (builder.fds.toList ++ extra) state)
    (refused : abandonCommandCall builder (state.report message) = (ref, state')) :
    Leaves watched outcomes reads base extra state' := by
  rcases leaves with accounts | ⟨own, read, kept, fewer, untouched, accounts⟩
  · exact .inl (accounts.refuse refused)
  · exact .inr ⟨own, read, kept, fewer, untouched, accounts.refuse refused⟩

theorem tokensAccount_nil : TokensAccount watched outcomes context builder before [] state := by
  intro base extra state' _ _ _ accounts parsed
  rw [parseTokens_nil] at parsed
  by_cases finishes : Finishes context builder state
  · simp [finishCommandCall_of_finishes finishes] at parsed
  · rw [finishCommandCall_of_not_finishes finishes] at parsed
    exact .inl (accounts.refuse parsed)

theorem tokensAccount_word {token : CString}
    (ordinary : containsString redirectionCaretSymbols token = false)
    (ih : TokensAccount watched outcomes context builder (before ++ [some token]) rest state) :
    TokensAccount watched outcomes context builder before (token :: rest) state := by
  intro base extra state' ready listed clean accounts parsed
  rw [parseTokens_word ordinary] at parsed
  exact (ih base extra state' ready listed (fun token member => clean token (.tail _ member))
    accounts parsed).mono fun _ reads => reads.word ordinary

/-- A redirection that fails opens nothing and leaves all claims. -/
theorem redirectStream_none {stream : Stream} {mode : OpenMode}
    {complaint : CString → Option CString} {fds : Fds} {filename : CString} {state' : ParserState}
    (redirected : redirectStream outcomes stream mode complaint fds filename state =
      (none, state')) :
    (∀ base extra, Accounts watched base extra state → Accounts watched base extra state') := by
  unfold redirectStream at redirected
  cases opening : state.kernel.openFile outcomes filename mode with
  | mk result kernel =>
      cases result with
      | ok fd => simp [opening] at redirected
      | error error =>
          have valid' : state.kernel.Valid → kernel.Valid := fun valid => valid.openFile opening
          obtain ⟨_, rfl⟩ := Kernel.openFile_error opening
          have same : ∀ base claimed, Accounted watched base claimed state.kernel →
              Accounted watched base claimed
                { state.kernel with opens := state.kernel.opens ++ [(filename, mode)] } :=
            fun _ _ accounted => ⟨accounted.kept, accounted.owned, accounted.apart⟩
          cases complains : complaint error <;>
            simp only [opening, complains, Prod.mk.injEq, true_and] at redirected <;>
            subst redirected <;>
            exact fun _ _ accounts =>
              ⟨same _ _ accounts.accounted, accounts.pipesAbove, valid' accounts.valid⟩

/-- A redirection that succeeds moves a claim of the builder to the new descriptor. -/
theorem redirectStream_accounts {stream : Stream} {mode : OpenMode}
    {complaint : CString → Option CString} {fds fds' : Fds} {filename : CString}
    {state' : ParserState} {base : List Descriptor} {extra : List Int}
    (accounts : Accounts watched base (fds.toList ++ extra) state)
    (redirected : redirectStream outcomes stream mode complaint fds filename state =
      (some fds', state')) :
    state' = { state with kernel := state'.kernel } ∧
      Accounts watched base (fds'.toList ++ extra) state' := by
  unfold redirectStream at redirected
  cases opening : state.kernel.openFile outcomes filename mode with
  | mk result kernel =>
      have valid' := accounts.valid.openFile opening
      cases result with
      | error error => cases complains : complaint error <;> simp [opening, complains] at redirected
      | ok fd =>
          obtain ⟨_, chosen, rfl⟩ := Kernel.openFile_ok opening
          simp only [opening, Prod.mk.injEq, Option.some.injEq] at redirected
          obtain ⟨rfl, rfl⟩ := redirected
          have free : fd ∉ state.kernel.numbers := chosen ▸ lowestFree_not_mem _
          have above : 2 < fd := accounts.valid.lt_of_not_mem (chosen ▸ lowestFree_nonneg _) free
          have accounted := accounts.accounted
          rw [List.append_assoc] at accounted
          have opened := accounted.add
            { state.kernel with
              opens := state.kernel.opens ++ [(filename, mode)]
              descriptors := ⟨fd, .file state.kernel.opens.length⟩ :: state.kernel.descriptors }
            ⟨fd, .file state.kernel.opens.length⟩ rfl above free
          refine ⟨rfl, ⟨?_, accounts.pipesAbove, ?_⟩⟩
          case refine_2 =>
            dsimp only
            split
            · exact valid'.close (by assumption)
            · exact valid'
          · have previousClosed : ∀ (kernel : Kernel) (descriptor : Descriptor),
                descriptor ∈ (if fds.get stream > 2 then kernel.close (fds.get stream)
                  else kernel).descriptors ↔ descriptor ∈ kernel.descriptors ∧
                    ¬ (descriptor.number ∈ [fds.get stream] ∧ 2 < descriptor.number) := by
              intro kernel descriptor
              split <;> simp only [Kernel.mem_close, List.mem_singleton] <;> grind
            have own : ∀ number, number ∈ (fds.set stream fd).toList →
                number = fd ∨ number ∈ fds.toList := by
              intro number member
              cases stream <;> simp [Fds.set, Fds.toList] at member ⊢ <;> tauto
            have kept : ∀ number ∈ fds.toList, number = fds.get stream ∨
                number ∈ (fds.set stream fd).toList := by
              intro number member
              cases stream <;> simp [Fds.set, Fds.get, Fds.toList] at member ⊢ <;> tauto
            have mine : fds.get stream ∈ fds.toList := by
              cases stream <;> simp [Fds.get, Fds.toList]
            have added : fd ∈ (fds.set stream fd).toList := by
              cases stream <;> simp [Fds.set, Fds.toList]
            rw [List.append_assoc]
            refine opened.close (previousClosed _) ?_ ?_ ?_
            · intro number member _
              rw [List.mem_singleton.mp member]
              exact .tail _ (List.mem_append_left _ mine)
            · intro number member _ other
              rw [List.mem_singleton] at other
              rcases List.mem_cons.mp member with rfl | member
              · exact List.mem_append_left _ added
              · rcases List.mem_append.mp member with mine | others
                · exact List.mem_append_left _ ((kept number mine).resolve_left other)
                · exact List.mem_append_right _ others
            · intro number member _
              rcases List.mem_append.mp member with mine | others
              · rcases own number mine with rfl | mine
                · exact .head _
                · exact .tail _ (List.mem_append_left _ mine)
              · exact .tail _ (List.mem_append_right _ others)

theorem tokensAccount_redirection_none {symbol : Redirection} {state₁ : ParserState}
    (inside : ¬ (rest = [] ∨ before = []))
    (apart : containsString redirectionCaretSymbols (rest.headD []) = false)
    (redirected : parseRedirections outcomes builder.fds symbol.text (rest.headD []) state =
      (none, state₁)) :
    TokensAccount watched outcomes context builder before (symbol.text :: rest) state := by
  intro base extra state' _ _ _ accounts parsed
  rw [parseTokens_redirection_text inside apart, redirected] at parsed
  rw [parseRedirections_eq] at redirected
  exact .inl ((redirectStream_none redirected _ _ accounts).abandon parsed)

theorem tokensAccount_redirection {symbol : Redirection} {fds : Fds} {state₁ : ParserState}
    (inside : ¬ (rest = [] ∨ before = []))
    (apart : containsString redirectionCaretSymbols (rest.headD []) = false)
    (redirected : parseRedirections outcomes builder.fds symbol.text (rest.headD []) state =
      (some fds, state₁))
    (ih : TokensAccount watched outcomes context { builder with fds } (before ++ [none, none]) rest.tail
      state₁) :
    TokensAccount watched outcomes context builder before (symbol.text :: rest) state := by
  intro base extra state' ready listed clean accounts parsed
  rw [parseTokens_redirection_text inside apart, redirected] at parsed
  rw [parseRedirections_eq] at redirected
  obtain ⟨same, accounts₁⟩ := redirectStream_accounts accounts redirected
  have ready₁ : Ready context.insideSubstitution state₁ := by
    refine ⟨accounts₁.valid, ?_, ?_⟩ <;> rw [same]
    · exact ready.lastCall
    · exact ready.lastCallSubstitution
  have listed₁ : state₁.Listed := by
    rw [same]
    exact listed
  refine (ih base extra state' ready₁ listed₁ (fun token member =>
    clean token (.tail _ (List.mem_of_mem_tail member))) accounts₁ parsed).mono fun own reads => ?_
  cases rest with
  | nil => exact absurd (.inl rfl) inside
  | cons file rest => exact .redirection apart redirected reads

theorem tokensAccount_substitution_none {state₁ : ParserState}
    (inside : ¬ (rest = [] ∨ before = []))
    (apart : containsString redirectionCaretSymbols (rest.headD []) = false)
    (substituted : parseCommandSubstitution outcomes builder rest state = (none, state₁))
    (substitution : SubstitutionAccounts watched outcomes builder rest state) :
    TokensAccount watched outcomes context builder before (commandSubstitutionStart :: rest) state := by
  intro base extra state' ready listed clean accounts parsed
  rw [parseTokens_substitution inside apart, substituted] at parsed
  exact (substitution base _ state₁ ready.valid ready.lastCall listed
    (fun token member => clean token (.tail _ member)) accounts substituted _).refuse parsed

theorem tokensAccount_substitution {builder' : CommandCallBuilder} {path : CString}
    {position : Nat} {state₁ : ParserState} (inside : ¬ (rest = [] ∨ before = []))
    (apart : containsString redirectionCaretSymbols (rest.headD []) = false)
    (substituted : parseCommandSubstitution outcomes builder rest state =
      (some (builder', path, position), state₁))
    (ih : TokensAccount watched outcomes context builder'
      (before ++ none :: List.replicate position none ++ [some path]) (rest.drop (position + 1))
      state₁) :
    TokensAccount watched outcomes context builder before (commandSubstitutionStart :: rest) state := by
  intro base extra state' ready listed clean accounts parsed
  rw [parseTokens_substitution inside apart, substituted] at parsed
  obtain ⟨link, body, read⟩ := (specifications outcomes).2.2 builder rest state _ _ _ _ ready.valid
    ready.lastCall (fun token member => clean token (.tail _ member)) substituted
  have accounts₁ := read.accounts ready.lastCall listed accounts
  have sameFds : builder'.fds = builder.fds := by rw [read.builder]
  rw [← sameFds] at accounts₁
  refine (ih base extra state'
    ⟨read.wires.valid, read.lastCall, fun _ => read.lastCallSubstitution⟩ (read.allocated listed)
    (fun token member => clean token (.tail _ (List.mem_of_mem_drop member))) accounts₁
    parsed).mono fun own reads => ?_
  rw [sameFds] at reads
  exact reads.substitution read

theorem tokensAccount_pipe (complete : Complete watched outcomes)
    (inside : ¬ (rest = [] ∨ before = []))
    (apart : containsString redirectionCaretSymbols (rest.headD []) = false)
    (call : builder.fds.stdout = uninitializedFd →
      CallAccounts watched outcomes (joinStrings rest [' ']) context.insideSubstitution true state) :
    TokensAccount watched outcomes context builder before (pipeSymbol :: rest) state := by
  intro base extra state' ready listed clean accounts parsed
  rw [parseTokens_pipe inside apart] at parsed
  by_cases free : builder.fds.stdout = uninitializedFd
  case neg =>
    rw [if_pos free] at parsed
    exact .inl (accounts.refuse parsed)
  rw [if_neg (not_not.mpr free)] at parsed
  cases called : parseCommandCall outcomes (joinStrings rest [' ']) context.insideSubstitution true
      state with
  | mk result state₁ =>
      cases result with
      | none =>
          simp only [called] at parsed
          refine ((call free base _ state₁ ready listed accounts called).refuse parsed).mono
            fun own reads => ?_
          rw [decide_eq_false (not_not.mpr free)]
          exact .pipe (fun token member => clean token (.tail _ member)) reads
      | some pipped =>
          obtain ⟨tree, read⟩ := parseCommandCall_read ready called
          cases created : state₁.kernel.pipe outcomes with
          | mk result kernel =>
              cases result with
              | none =>
                  have valid := read.wires.valid.pipe created
                  obtain ⟨failed, rfl⟩ := Kernel.pipe_none created
                  simp only [called, linkPipelines_none created] at parsed
                  have noFile : ∀ descriptor, watched descriptor →
                      ∀ serial, descriptor.file ≠ .file serial :=
                    complete.resolve_left fun succeeds => by
                      rw [succeeds] at failed
                      cases failed
                  obtain ⟨accounted, above, _⟩ :=
                    read.accounts_lost noFile ready.lastCall listed accounts
                  have unlinked : Accounts watched base (builder.fds.toList ++ extra)
                      { state₁ with
                        kernel := { state₁.kernel with pipes := state₁.kernel.pipes + 1 } } :=
                    ⟨⟨accounted.kept, accounted.owned, accounted.apart⟩, above, valid⟩
                  exact .inl (unlinked.refuse parsed)
              | some fd =>
                  simp only [called, linkPipelines_some created] at parsed
                  have accounts₁ := read.accounts_linked created ready.lastCall listed accounts
                  by_cases finishes : Finishes context (builder.writingTo (state₁.nextLink fd))
                      ((state₁.linked kernel fd pipped).listPipped context.insideSubstitution
                        pipped)
                  · simp [finishCommandCall_of_finishes finishes] at parsed
                  · rw [finishCommandCall_of_not_finishes finishes] at parsed
                    refine .inl (Accounts.refuse
                      ⟨accounts₁.accounted.congr fun number above => ?_, accounts₁.pipesAbove,
                        accounts₁.valid⟩ parsed)
                    have unset : number ≠ builder.fds.stdout := by
                      rw [free, uninitializedFd]
                      omega
                    have claims : number = fd.2 → number ∈ ((state₁.linked kernel fd pipped).listPipped
                        context.insideSubstitution pipped).claimed := by
                      rintro rfl
                      refine List.mem_append_left _ (mem_pipeNumbers.mpr ⟨fd, ?_, .inr rfl⟩)
                      exact List.mem_append_right _ (.head _)
                    simp only [Fds.toList, CommandCallBuilder.writingTo, ParserState.nextLink,
                      List.mem_append, List.mem_cons, List.not_mem_nil, or_false, unset, false_or]
                    tauto

/-- Closing the descriptors of a freed call, whose fields may hold anything. -/
theorem Accounts.spill {base : List Descriptor} {extra : List Int} {state' : ParserState}
    {ref : CallRef} {own : Bool}
    (accounts : Accounts watched base ((state.call ref).fds ++ extra) state)
    (pipesOnly : own = false → ∀ number ∈ (state.call ref).fds, 2 < number →
      number ∈ pipeNumbers state.openPipes)
    (same : state'.claimed = state.claimed ∧ state'.openPipes = state.openPipes)
    (closed : state'.kernel =
      closeUnusedFileDescriptorsFromArray state.kernel (outcomes.freed ref).toList) :
    Spilled watched outcomes own base extra state' := by
  obtain ⟨⟨kept, owned, apart⟩, above, valid⟩ := accounts
  obtain ⟨claimed, openPipes⟩ := same
  have left : ∀ descriptor, descriptor ∈ state'.kernel.descriptors ↔
      descriptor ∈ state.kernel.descriptors ∧
        ¬ (descriptor.number ∈ (outcomes.freed ref).toList ∧ 2 < descriptor.number) := by
    intro descriptor
    rw [closed]
    exact mem_closeUnusedFileDescriptorsFromArray
  refine ⟨base.filter (· ∈ state'.kernel.descriptors), List.filter_subset_self _, ?_, ?_, ?_, ?_⟩
  · intro descriptor member untouched
    refine List.mem_filter.mpr ⟨member, decide_eq_true ((left descriptor).mpr ?_)⟩
    exact ⟨kept descriptor member, fun ⟨inside, large⟩ => untouched large ref inside⟩
  · constructor
    case kept => exact fun descriptor member => of_decide_eq_true (List.mem_filter.mp member).2
    case owned =>
      rintro descriptor member ⟨watch, unredirected, new⟩
      have before := ((left descriptor).mp member).1
      obtain ⟨large, claims⟩ := (owned descriptor before watch).resolve_left new
      refine .inr ⟨large, ?_⟩
      rw [claimed]
      rw [List.append_assoc] at claims
      rcases List.mem_append.mp claims with freed | claims
      · exact List.mem_append_right _ (List.mem_append_left _ (pipesOnly unredirected _ freed large))
      · exact claims
    case apart =>
      intro descriptor member large claims
      rw [claimed] at claims
      refine apart descriptor (List.mem_filter.mp member).1 large ?_
      rw [List.append_assoc]
      exact List.mem_append_right _ claims
  · rw [openPipes]
    exact above
  · rw [closed]
    exact valid.closeArray _

theorem substitutionAccounts
    (call : ∀ position fd kernel, substitutionEnd 0 rest = some position →
      state.kernel.pipe outcomes = (some fd, kernel) →
      CallAccounts watched outcomes (joinStrings (rest.take position) [' ']) true false
        (state.substituting kernel fd)) :
    SubstitutionAccounts watched outcomes builder rest state := by
  intro base extra state' valid noLast listed clean accounts substituted redirected
  cases ended : substitutionEnd 0 rest with
  | none =>
      rw [parseCommandSubstitution_unclosed ended] at substituted
      obtain ⟨_, rfl⟩ := Prod.mk.inj substituted
      exact .inl ⟨accounts.accounted, accounts.pipesAbove, accounts.valid⟩
  | some position =>
      cases created : state.kernel.pipe outcomes with
      | mk result kernel =>
          cases result with
          | none =>
              rw [parseCommandSubstitution_pipe_none ended created] at substituted
              have valid' := valid.pipe created
              obtain ⟨_, rfl⟩ := Kernel.pipe_none created
              obtain ⟨_, rfl⟩ := Prod.mk.inj substituted
              obtain ⟨⟨kept, owned, apart⟩, above, _⟩ := accounts
              exact .inl ⟨⟨kept, owned, apart⟩, above, valid'⟩
          | some fd =>
              rw [parseCommandSubstitution_parsed ended created] at substituted
              have valid₁ := valid.pipe created
              have ready₁ : Ready true (state.substituting kernel fd) :=
                ⟨valid₁, noLast, fun _ => rfl⟩
              have accounts₁ : Accounts watched base extra (state.substituting kernel fd) :=
                (wires_substituting valid created).accounts_claimed []
                  (fun number _ => state.mem_claimed_substituting kernel fd number) accounts
              cases called : parseCommandCall outcomes (joinStrings (rest.take position) [' ']) true
                  false (state.substituting kernel fd) with
              | mk result state₁ =>
                  cases result with
                  | none =>
                      have leaves := call position fd kernel ended created base extra state₁
                        ready₁ listed accounts₁ called
                      have same : state' = state₁ := by
                        cases last : state₁.lastParsedCommandCallSubstitution <;>
                          simpa [called, concludeSubstitution, last, eq_comm] using substituted
                      rw [same]
                      exact leaves.mono fun own reads => .inside clean ended created reads
                  | some ref =>
                      obtain ⟨body, read⟩ := parseCommandCall_read ready₁ called
                      have last := read.globals.lastCallSubstitution
                      simp only [if_true] at last
                      rw [called] at substituted
                      simp only [concludeSubstitution, last, read.call_last] at substituted
                      split at substituted
                      · next redirects =>
                        obtain ⟨_, rfl⟩ := Prod.mk.inj substituted
                        refine .inr ⟨_, .freed clean ended created read redirects, ?_⟩
                        refine (read.accounts noLast listed accounts₁).spill ?_ ⟨rfl, rfl⟩ rfl
                        exact fun unredirected number => read.fds_first unredirected
                      · simp at substituted

theorem callAccounts {commandString : CString} {insideSubstitution insidePipeline : Bool}
    (nonblank : words commandSeparator commandString ≠ [])
    (tokens : TokensAccount watched outcomes { commandString, insideSubstitution, insidePipeline }
      newCommandCallBuilder [] (words commandSeparator commandString) state) :
    CallAccounts watched outcomes commandString insideSubstitution insidePipeline state := by
  intro base extra state' ready listed accounts parsed
  rw [parseCommandCall_words nonblank] at parsed
  have started : Accounts watched base (newCommandCallBuilder.fds.toList ++ extra) state := by
    refine ⟨accounts.accounted.congr fun number above => ?_, accounts.pipesAbove, accounts.valid⟩
    have unset : number ≠ uninitializedFd := by
      simp only [uninitializedFd]
      omega
    simp [newCommandCallBuilder, Fds.toList, unset]
  cases shape : words commandSeparator commandString with
  | nil => exact absurd shape nonblank
  | cons name rest =>
      cases ordinary : containsString redirectionCaretSymbols name with
      | true =>
          rw [shape, parseTokens_misplaced ordinary (.inr rfl)] at parsed
          exact .inl (started.refuse parsed)
      | false =>
          have leaves := tokens base extra state' ready listed
            (words_clean commandSeparator_single commandString) started parsed
          rw [shape] at leaves
          exact leaves.mono fun own reads => ⟨⟨name, ordinary⟩, rest, rfl, reads.tail ordinary⟩

end Steps

/-- Every error exit leaves what the caller has opened, and nothing else unclaimed, unless
a freed call has been read. -/
theorem accounts (outcomes : FileOutcomes) (complete : Complete watched outcomes) :
    (∀ commandString insideSubstitution insidePipeline state,
      CallAccounts watched outcomes commandString insideSubstitution insidePipeline state) ∧
    (∀ context builder before rest state,
      TokensAccount watched outcomes context builder before rest state) ∧
    (∀ builder rest state, SubstitutionAccounts watched outcomes builder rest state) := by
  apply parser_induction
  case blank =>
    intro commandString insideSubstitution insidePipeline state blank base extra state' _ _ accounts
      parsed
    rw [parseCommandCall_blank blank] at parsed
    cases parsed
    exact .inl accounts
  case string =>
    intro commandString insideSubstitution insidePipeline state nonblank ih
    exact callAccounts nonblank ih
  case nil =>
    intro context builder before state
    exact tokensAccount_nil
  case word =>
    intro context builder before token rest state ordinary ih
    exact tokensAccount_word ordinary ih
  case misplaced =>
    intro context builder before token rest state symbol outside base extra state' _ _ _ accounts
      parsed
    rw [parseTokens_misplaced symbol outside] at parsed
    exact .inl (accounts.refuse parsed)
  case adjacent =>
    intro context builder before token rest state symbol inside adjacent base extra state' _ _ _
      accounts parsed
    rw [parseTokens_adjacent symbol inside adjacent] at parsed
    exact .inl (accounts.refuse parsed)
  case start =>
    intro context builder before rest state inside apart body ih
    cases substituted : parseCommandSubstitution outcomes builder rest state with
    | mk result state₁ =>
        cases result with
        | none => exact tokensAccount_substitution_none inside apart substituted body
        | some result =>
            exact tokensAccount_substitution inside apart substituted (ih _ _ _ _ substituted)
  case pipe =>
    intro context builder before rest state inside apart ih
    exact tokensAccount_pipe complete inside apart ih
  case stray =>
    intro context builder before rest state inside apart base extra state' _ _ _ accounts parsed
    rw [parseTokens_redirection (by decide) inside apart (by decide) (by decide),
      parseRedirections_end] at parsed
    exact .inl (accounts.abandon parsed)
  case redirection =>
    intro context builder before symbol rest state inside apart ih
    cases redirected : parseRedirections outcomes builder.fds symbol.text (rest.headD []) state with
    | mk result state₁ =>
        cases result with
        | none => exact tokensAccount_redirection_none inside apart redirected
        | some fds =>
            exact tokensAccount_redirection inside apart redirected (ih fds state₁ redirected)
  case body =>
    intro builder rest state ih
    exact substitutionAccounts ih

/-! ## Closing loops -/

theorem mem_closePipes {openPipes : List (Int × Int)} {descriptor : Descriptor} :
    ∀ {kernel : Kernel}, descriptor ∈ (closePipes openPipes kernel).descriptors ↔
      descriptor ∈ kernel.descriptors ∧ descriptor.number ∉ pipeNumbers openPipes := by
  induction openPipes with
  | nil => simp [closePipes, pipeNumbers]
  | cons pipe openPipes ih =>
      intro kernel
      rw [closePipes, List.foldl_cons, ← closePipes, ih]
      simp only [Kernel.mem_close, pipeNumbers, List.flatMap_cons, List.mem_append, List.mem_cons,
        List.not_mem_nil, or_false, not_or]
      tauto

theorem mem_closeUnusedFileDescriptors {openPipes : List (Int × Int)} {descriptor : Descriptor}
    {calls : List CommandCall} :
    ∀ {kernel : Kernel},
      descriptor ∈ (closeUnusedFileDescriptors calls openPipes kernel).descriptors ↔
        descriptor ∈ kernel.descriptors ∧ ¬ (descriptor.number ∈ calls.flatMap CommandCall.fds ∧
          2 < descriptor.number ∧ descriptor.number ∉ pipeNumbers openPipes) := by
  induction calls with
  | nil => simp [closeUnusedFileDescriptors]
  | cons call calls ih =>
      intro kernel
      have pipes : ¬ contains2 openPipes descriptor.number = true ↔
          descriptor.number ∉ pipeNumbers openPipes := by
        rw [contains2_iff, mem_pipeNumbers]
      have listed : 2 < descriptor.number →
          (descriptor.number ∈ fillSet 3 [call.stdin, call.stdout, call.stderr] ↔
            descriptor.number ∈ call.fds) :=
        fun above => mem_fillSet (Nat.le_refl 3) (Int.le_of_lt (Int.lt_trans (by decide) above))
      rw [closeUnusedFileDescriptors, List.foldl_cons, ← closeUnusedFileDescriptors, ih,
        closeUnusedFileDescriptorsHelper,
        mem_foldl_close (fun fd => fd > 2 ∧ ¬ contains2 openPipes fd = true), pipes]
      simp only [List.flatMap_cons, List.mem_append]
      grind

theorem Kernel.Valid.closePipes {openPipes : List (Int × Int)}
    (above : ∀ pipe ∈ openPipes, 2 < pipe.1 ∧ 2 < pipe.2) :
    ∀ {kernel : Kernel}, kernel.Valid → (Jsh.closePipes openPipes kernel).Valid := by
  induction openPipes with
  | nil => exact fun valid => valid
  | cons pipe openPipes ih =>
      intro kernel valid
      obtain ⟨readEnd, writeEnd⟩ := above pipe (.head _)
      exact ih (fun other member => above other (.tail _ member))
        ((valid.close readEnd).close writeEnd)

theorem Kernel.Valid.closeUnusedFileDescriptors (openPipes : List (Int × Int))
    (calls : List CommandCall) :
    ∀ {kernel : Kernel}, kernel.Valid →
      (Jsh.closeUnusedFileDescriptors calls openPipes kernel).Valid := by
  induction calls with
  | nil => exact fun valid => valid
  | cons call calls ih =>
      exact fun valid => ih (valid.foldl_close (fun fd => fd > 2 ∧ ¬ contains2 openPipes fd = true)
        (fun _ chosen => chosen.1) _)

/-! ## Commands -/

/-- `parse_command` closes what the calls and pipes of the command claim. -/
theorem Accounts.giveUp {base : List Descriptor} {state : ParserState} {kernel : Kernel}
    (accounts : Accounts watched base [] state)
    (closes : kernel = closePipes state.openPipes
      (closeUnusedFileDescriptors
        ((state.commandCalls ++ state.lastParsedCommandCall.toList).map state.call)
        state.openPipes state.kernel)) :
    kernel.Valid ∧ (∀ descriptor ∈ base, descriptor ∈ kernel.descriptors) ∧
      ∀ descriptor ∈ kernel.descriptors, watched descriptor → descriptor ∈ base := by
  have claims : ∀ number, number ∈ [] ++ state.claimed ↔
      number ∈ pipeNumbers state.openPipes ∨
        number ∈ ((state.commandCalls ++ state.lastParsedCommandCall.toList).map
          state.call).flatMap CommandCall.fds := by
    intro number
    rw [List.flatMap_map, List.nil_append, ParserState.claimed, List.mem_append]
  obtain ⟨⟨kept, owned, apart⟩, above, valid⟩ := accounts
  simp only [claims] at owned apart
  rw [closes]
  refine ⟨(valid.closeUnusedFileDescriptors _ _).closePipes above, ?_⟩
  simp only [mem_closePipes, mem_closeUnusedFileDescriptors]
  constructor
  · intro descriptor member
    refine ⟨⟨kept descriptor member, ?_⟩, ?_⟩
    · rintro ⟨call, large, _⟩
      exact apart descriptor member large (.inr call)
    · intro pipe
      obtain ⟨ends, listed, same⟩ := mem_pipeNumbers.mp pipe
      have large := above ends listed
      refine apart descriptor member ?_ (.inl pipe)
      rcases same with same | same <;> omega
  · rintro descriptor ⟨⟨member, unclosed⟩, noPipe⟩ watch
    rcases owned descriptor member watch with old | ⟨large, pipe | call⟩
    · exact old
    · exact absurd pipe noPipe
    · exact absurd ⟨call, large, noPipe⟩ unclosed

/-- The state in which `parse_command` gives up. -/
theorem concludeCommand_none (commandString : CString) (state : ParserState) :
    ∃ state', concludeCommand commandString (none, state) = (none, state') ∧
      state'.kernel = closePipes state.openPipes
        (closeUnusedFileDescriptors
          ((state.commandCalls ++ state.lastParsedCommandCall.toList).map state.call)
          state.openPipes state.kernel) := by
  cases last : state.lastParsedCommandCall with
  | none =>
      simp only [concludeCommand, last, abandonCommand]
      exact ⟨_, rfl, by simp⟩
  | some first =>
      simp only [concludeCommand, last, abandonCommand]
      exact ⟨_, rfl, rfl⟩

/-- When `parse_command` gives up it closes what it has opened, unless it reads a freed
call: then it closes what the fields of that call hold, and files of the call's own stay
open. -/
theorem parseCommand_none {outcomes : FileOutcomes} {commandString : CString}
    {state state' : ParserState} (valid : state.kernel.Valid)
    (complete : Complete watched outcomes)
    (refused : parseCommand outcomes commandString state = (none, state')) :
    state'.kernel.Valid ∧
      ((∀ descriptor ∈ state.kernel.descriptors, descriptor ∈ state'.kernel.descriptors) ∧
          (∀ descriptor ∈ state'.kernel.descriptors, watched descriptor →
            descriptor ∈ state.kernel.descriptors) ∨
        ∃ own, ReadsFreedCall outcomes commandString state own ∧
          (∀ descriptor ∈ state.kernel.descriptors, Untouched outcomes descriptor.number →
            descriptor ∈ state'.kernel.descriptors) ∧
          (own = false → ∀ descriptor ∈ state'.kernel.descriptors, watched descriptor →
            descriptor ∈ state.kernel.descriptors)) := by
  cases nonblank : newEmptyCommand commandString with
  | false =>
      rw [parseCommand_blank nonblank] at refused
      rw [← (Prod.mk.inj refused).2]
      exact ⟨valid, .inl ⟨fun _ member => member, fun _ member _ => member⟩⟩
  | true =>
      rw [parseCommand_eq nonblank] at refused
      have started : Accounts watched state.kernel.descriptors [] state.entering :=
        ⟨⟨fun _ member => member, fun _ member _ => .inl member, by
          simp [ParserState.claimed, ParserState.entering, pipeNumbers]⟩,
          by simp [ParserState.entering], valid⟩
      have ready := ready_entering valid
      cases called : parseCommandCall outcomes commandString false false state.entering with
      | mk result state₁ =>
          rw [called] at refused
          cases result with
          | some call =>
              obtain ⟨tree, read⟩ := parseCommandCall_read ready called
              have lastCall := read.globals.lastCall
              simp only [Bool.false_eq_true, if_false] at lastCall
              simp [concludeCommand, lastCall] at refused
          | none =>
              obtain ⟨_, concluded, closes⟩ := concludeCommand_none commandString state₁
              cases concluded.symm.trans refused
              have leaves := (accounts outcomes complete).1 commandString false false state.entering _
                _ state₁ ready (by simp [ParserState.Listed, ParserState.entering]) started called
              rcases leaves with kept | ⟨own, reads, kept, fewer, untouched, spilled⟩
              · obtain ⟨valid', inside, closed⟩ := kept.giveUp closes
                exact ⟨valid', .inl ⟨inside, closed⟩⟩
              · obtain ⟨valid', inside, closed⟩ := spilled.giveUp closes
                refine ⟨valid', .inr ⟨own, ?_, fun descriptor member free =>
                  inside descriptor (untouched descriptor member free),
                  fun unredirected descriptor member watch => ?_⟩⟩
                · rw [words_commandSeparator] at reads
                  obtain ⟨name, rest, tokens, opens, pipes, comes, succeed⟩ := reads
                  exact ⟨name, rest, tokens, opens, pipes, comes, succeed.opens, succeed.pipes⟩
                · by_contra new
                  exact new (fewer (closed descriptor member ⟨watch, unredirected, new⟩))

/-- The same when no freed call is read. -/
theorem parseCommand_closes {outcomes : FileOutcomes} {commandString : CString}
    {state state' : ParserState} (valid : state.kernel.Valid)
    (complete : Complete watched outcomes)
    (intact : ∀ own, ¬ ReadsFreedCall outcomes commandString state own)
    (refused : parseCommand outcomes commandString state = (none, state')) :
    (∀ descriptor ∈ state.kernel.descriptors, descriptor ∈ state'.kernel.descriptors) ∧
      ∀ descriptor ∈ state'.kernel.descriptors, watched descriptor →
        descriptor ∈ state.kernel.descriptors :=
  (parseCommand_none valid complete refused).2.resolve_right fun ⟨own, reads, _⟩ => intact own reads

/-- The table of descriptors stays valid, whatever a freed call holds. -/
theorem parseCommand_valid {outcomes : FileOutcomes} {commandString : CString}
    {state : ParserState} (valid : state.kernel.Valid) :
    (parseCommand outcomes commandString state).2.kernel.Valid := by
  cases parsed : parseCommand outcomes commandString state with
  | mk result state' =>
      cases result with
      | none =>
          have complete : Complete (fun _ => False) outcomes := .inr fun _ none => none.elim
          exact (parseCommand_none valid complete parsed).1
      | some command =>
          obtain ⟨_, read⟩ := parseCommand_some valid parsed
          exact read.wires.valid

/-- The descriptor is that of a redirection: one call uses it, and it is no pipe's end. -/
structure Command.OwnsFile (command : Command) (number : Int) : Prop where
  above : 2 < number
  noPipe : number ∉ pipeNumbers command.openPipes
  once : command.commandCalls.countP (fun call => decide (number ∈ call.fds)) = 1

private theorem countP_eq_one {calls : List CommandCall} {number : Int}
    (once : (calls.flatMap CommandCall.fds).count number = 1) :
    calls.countP (fun call => decide (number ∈ call.fds)) = 1 := by
  induction calls with
  | nil => simp at once
  | cons call calls ih =>
      rw [List.flatMap_cons, List.count_append] at once
      by_cases own : number ∈ call.fds
      · have positive := List.count_pos_iff.mpr own
        have others : (calls.flatMap CommandCall.fds).count number = 0 := by omega
        have absent : ∀ other ∈ calls, number ∉ other.fds := fun other member inside =>
          List.count_eq_zero.mp others (List.mem_flatMap.mpr ⟨other, member, inside⟩)
        have none : calls.countP (fun call => decide (number ∈ call.fds)) = 0 :=
          List.countP_eq_zero.mpr fun other member => by simpa using absent other member
        simp [own, none]
      · rw [List.count_eq_zero.mpr own, Nat.zero_add] at once
        simp [own, ih once]

/-- The table after the parse of a command. -/
theorem CommandRead.mem_descriptors {outcomes : FileOutcomes} {commandString : CString}
    {state state' : ParserState} {command : Command} {tree : Pipeline Labels.wired}
    (read : CommandRead outcomes commandString state state' command tree)
    {descriptor : Descriptor} :
    descriptor ∈ state'.kernel.descriptors ↔
      descriptor ∈ state.kernel.descriptors ∨
        descriptor ∈ tree.links.flatMap Link.descriptors ++ tree.files := by
  have counted := read.wires.descriptors descriptor
  rw [List.count_nil, Nat.add_zero] at counted
  have entering : state.entering.kernel = state.kernel := rfl
  rw [entering] at counted
  rw [List.mem_append, ← List.count_pos_iff, ← List.count_pos_iff, ← List.count_pos_iff,
    ← List.count_pos_iff]
  omega

/-- A descriptor that comes in has a new number. -/
theorem CommandRead.entered {outcomes : FileOutcomes} {commandString : CString}
    {state state' : ParserState} {command : Command} {tree : Pipeline Labels.wired}
    (read : CommandRead outcomes commandString state state' command tree)
    {descriptor : Descriptor}
    (new : descriptor ∈ tree.links.flatMap Link.descriptors ++ tree.files) :
    descriptor ∈ state'.kernel.descriptors ∧
      descriptor.number ∈ state'.kernel.numbers ∧ descriptor.number ∉ state.kernel.numbers := by
  have member := read.mem_descriptors.mpr (.inr new)
  refine ⟨member, Kernel.mem_numbers.mpr ⟨descriptor, member, rfl⟩, fun old => ?_⟩
  obtain ⟨other, before, same⟩ := Kernel.mem_numbers.mp old
  exact read.wires.apart before new same

/-- What `parse_command` has opened when it returns a command: its pipes and the files
of its redirections. -/
theorem parseCommand_opened {outcomes : FileOutcomes} {commandString : CString}
    {state state' : ParserState} {command : Command} (valid : state.kernel.Valid)
    (accepted : parseCommand outcomes commandString state = (some command, state')) :
    (∀ descriptor ∈ state.kernel.descriptors, descriptor ∈ state'.kernel.descriptors) ∧
      ∀ number, (number ∈ state'.kernel.numbers ∧ number ∉ state.kernel.numbers) ↔
        number ∈ pipeNumbers command.openPipes ∨ command.OwnsFile number := by
  obtain ⟨tree, read⟩ := parseCommand_some valid accepted
  have entered : ∀ descriptor ∈ tree.links.flatMap Link.descriptors ++ tree.files,
      descriptor.number ∈ state'.kernel.numbers ∧ descriptor.number ∉ state.kernel.numbers :=
    fun descriptor new => (read.entered new).2
  have distinct : (tree.files.map (·.number)).Nodup := by
    have all := read.wires.distinct
    rw [List.map_append] at all
    exact all.of_append_right
  have pipes : ∀ number, number ∈ pipeNumbers command.openPipes ↔
      ∃ descriptor ∈ tree.links.flatMap Link.descriptors, descriptor.number = number := by
    intro number
    rw [read.openPipes]
    exact mem_link_descriptors
  constructor
  · exact fun descriptor member => read.mem_descriptors.mpr (.inl member)
  · intro number
    constructor
    · rintro ⟨opened, unopened⟩
      obtain ⟨descriptor, member, rfl⟩ := Kernel.mem_numbers.mp opened
      have old : descriptor ∉ state.kernel.descriptors := fun old =>
        unopened (Kernel.mem_numbers.mpr ⟨descriptor, old, rfl⟩)
      have new := (read.mem_descriptors.mp member).resolve_left old
      by_cases pipe : descriptor.number ∈ pipeNumbers command.openPipes
      · exact .inl pipe
      · have noLink : descriptor ∉ tree.links.flatMap Link.descriptors := fun link =>
          pipe ((pipes _).mpr ⟨descriptor, link, rfl⟩)
        have file : descriptor ∈ tree.files := (List.mem_append.mp new).resolve_left noLink
        refine .inr ⟨read.wires.openedAbove descriptor file, pipe, ?_⟩
        rw [read.perm.countP_eq]
        refine countP_eq_one ?_
        rw [read.openPipes] at pipe
        rw [tree.count_fds (read.wires.openedAbove descriptor file) commandString (by simp) (by simp)
          pipe]
        exact List.count_eq_one_of_mem distinct (List.mem_map_of_mem file)
    · rintro (pipe | ⟨above, noPipe, once⟩)
      · obtain ⟨descriptor, member, rfl⟩ := (pipes number).mp pipe
        exact entered descriptor (List.mem_append_left _ member)
      · rw [read.openPipes] at noPipe
        obtain ⟨call, member, inside⟩ := List.countP_pos_iff.mp (once ▸ Nat.one_pos)
        have used : number ∈ (tree.calls commandString none none).flatMap CommandCall.fds :=
          List.mem_flatMap.mpr ⟨call, read.perm.subset member, of_decide_eq_true inside⟩
        rw [tree.mem_fds_iff above commandString (by simp) (by simp) noPipe] at used
        obtain ⟨descriptor, member, rfl⟩ := List.mem_map.mp used
        exact entered descriptor (List.mem_append_right _ member)

end Jsh
