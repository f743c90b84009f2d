import Jsh.Ownership

/-!
# Descriptors after a freed call has been read

A parse that comes to a freed call is rejected. Nothing is known of the descriptors it
closes then, and the files of the call stay open.
-/

set_option autoImplicit false

namespace Jsh

/-- What is claimed is open, and what builders claim is claimed once. -/
structure Exclusive (extra : List Int) (state : ParserState) : Prop where
  present : ∀ number ∈ extra ++ state.claimed, 2 < number → number ∈ state.kernel.numbers
  once : ∀ number, 2 < number → extra.count number ≤ 1
  apart : ∀ number ∈ extra, 2 < number → number ∉ state.claimed

/-- With the standard descriptors in the fields of freed calls nothing is lost. -/
theorem untouched_standard {outcomes : FileOutcomes} (number : Int) :
    Untouched { outcomes with freed := fun _ => ⟨0, 1, 2⟩ } number := by
  intro above ref
  simp only [Fds.toList, List.mem_cons, List.not_mem_nil, or_false]
  omega

/-- What is left after a freed call has been read: numbers that all its fields may hold are
closed; if they hold no number above 2, a file of the call's own is open that nobody
claims. -/
structure Spoiled (outcomes : FileOutcomes) (own : Bool) (extra : List Int) (state : ParserState) :
    Prop where
  closed : ∀ number, 2 < number → (∀ ref, number ∈ (outcomes.freed ref).toList) →
    number ∉ state.kernel.numbers
  left : own = true → (∀ number, Untouched outcomes number) →
    ∃ number ∈ state.kernel.numbers, 2 < number ∧ number ∉ extra ++ state.claimed

section Exits

variable {outcomes : FileOutcomes} {own : Bool} {extra : List Int} {state : ParserState}

theorem Kernel.mem_numbers_close {kernel : Kernel} {fd number : Int} :
    number ∈ (kernel.close fd).numbers ↔ number ∈ kernel.numbers ∧ number ≠ fd := by
  simp only [Kernel.mem_numbers, Kernel.mem_close]
  constructor
  · rintro ⟨descriptor, ⟨member, left⟩, rfl⟩
    exact ⟨⟨descriptor, member, rfl⟩, left⟩
  · rintro ⟨⟨descriptor, member, rfl⟩, left⟩
    exact ⟨descriptor, ⟨member, left⟩, rfl⟩

theorem Kernel.mem_numbers_closeArray {kernel : Kernel} {fds : List Int} {number : Int} :
    number ∈ (closeUnusedFileDescriptorsFromArray kernel fds).numbers ↔
      number ∈ kernel.numbers ∧ ¬ (number ∈ fds ∧ 2 < number) := by
  simp only [Kernel.mem_numbers, mem_closeUnusedFileDescriptorsFromArray]
  constructor
  · rintro ⟨descriptor, ⟨member, left⟩, rfl⟩
    exact ⟨⟨descriptor, member, rfl⟩, left⟩
  · rintro ⟨⟨descriptor, member, rfl⟩, left⟩
    exact ⟨descriptor, ⟨member, left⟩, rfl⟩

theorem Spoiled.refuse {builder : CommandCallBuilder} (message : CString)
    (spoiled : Spoiled outcomes own (builder.fds.toList ++ extra) state) :
    ∃ state', abandonCommandCall builder (state.report message) = (none, state') ∧
      Spoiled outcomes own extra state' := by
  refine ⟨_, rfl, ?_, ?_⟩
  · intro number above fields opened
    exact spoiled.closed number above fields (Kernel.mem_numbers_closeArray.mp opened).1
  · intro redirects untouched
    obtain ⟨number, opened, above, unclaimed⟩ := spoiled.left redirects untouched
    rw [List.append_assoc, List.mem_append, not_or] at unclaimed
    exact ⟨number, Kernel.mem_numbers_closeArray.mpr ⟨opened, fun both => unclaimed.1 both.1⟩,
      above, unclaimed.2⟩

end Exits

section Steps

variable {outcomes : FileOutcomes} {extra : List Int} {state state' : ParserState}

/-- What a successful part of a parse opens is claimed once. -/
theorem Exclusive.grow {links : List Link} {opens : List (CString × OpenMode)}
    {labels files : List Descriptor} (exclusive : Exclusive extra state)
    (wires : Wires outcomes state state' links opens labels [] files)
    (claimed : ∀ number, 2 < number → (number ∈ state'.claimed ↔
      number ∈ pipeNumbers (links.map (·.ends)) ++ files.map (·.number) ++ state.claimed)) :
    Exclusive extra state' := by
  have counted := wires.descriptors
  simp only [List.count_nil, Nat.add_zero] at counted
  have kept : ∀ number ∈ state.kernel.numbers, number ∈ state'.kernel.numbers := by
    intro number member
    obtain ⟨descriptor, inside, same⟩ := Kernel.mem_numbers.mp member
    have before := List.count_pos_iff.mpr inside
    exact Kernel.mem_numbers.mpr
      ⟨descriptor, List.count_pos_iff.mp (by have := counted descriptor; omega), same⟩
  have entered : ∀ number ∈ pipeNumbers (links.map (·.ends)) ++ files.map (·.number),
      ∃ descriptor ∈ links.flatMap Link.descriptors ++ files, descriptor.number = number := by
    intro number member
    rcases List.mem_append.mp member with link | file
    · obtain ⟨descriptor, inside, same⟩ := mem_link_descriptors.mp link
      exact ⟨descriptor, List.mem_append_left _ inside, same⟩
    · obtain ⟨descriptor, inside, same⟩ := List.mem_map.mp file
      exact ⟨descriptor, List.mem_append_right _ inside, same⟩
  constructor
  case once => exact exclusive.once
  case present =>
    intro number member above
    rcases List.mem_append.mp member with mine | claims
    · exact kept number (exclusive.present number (List.mem_append_left _ mine) above)
    · rcases List.mem_append.mp ((claimed number above).mp claims) with new | old
      · obtain ⟨descriptor, inside, same⟩ := entered number new
        have after := List.count_pos_iff.mpr inside
        rw [List.count_append] at after
        exact Kernel.mem_numbers.mpr
          ⟨descriptor, List.count_pos_iff.mp (by have := counted descriptor; omega), same⟩
      · exact kept number (exclusive.present number (List.mem_append_right _ old) above)
  case apart =>
    intro number mine above claims
    rcases List.mem_append.mp ((claimed number above).mp claims) with new | old
    · obtain ⟨descriptor, inside, same⟩ := entered number new
      obtain ⟨other, present, same'⟩ := Kernel.mem_numbers.mp
        (exclusive.present number (List.mem_append_left _ mine) above)
      exact wires.apart present inside (same'.trans same.symm)
    · exact exclusive.apart number mine above old

/-- A redirection adds a number that is not in use, and closes the previous one. -/
theorem redirectStream_numbers {stream : Stream} {mode : OpenMode}
    {complaint : CString → Option CString} {fds fds' : Fds} {filename : CString}
    (redirected : redirectStream outcomes stream mode complaint fds filename state =
      (some fds', state')) :
    ∃ fd ∉ state.kernel.numbers, fds' = fds.set stream fd ∧
      state' = { state with kernel := state'.kernel } ∧
      ∀ number, number ∈ state'.kernel.numbers ↔ (number = fd ∨ number ∈ state.kernel.numbers) ∧
        ¬ (2 < fds.get stream ∧ number = fds.get stream) := by
  unfold redirectStream at redirected
  cases opening : state.kernel.openFile outcomes filename mode with
  | mk result kernel =>
      cases result with
      | error error => cases complains : complaint error <;> simp [opening, complains] at redirected
      | ok fd =>
          obtain ⟨_, chosen, rfl⟩ := Kernel.openFile_ok opening
          simp only [opening, Prod.mk.injEq, Option.some.injEq] at redirected
          obtain ⟨rfl, rfl⟩ := redirected
          refine ⟨fd, chosen ▸ lowestFree_not_mem _, rfl, rfl, fun number => ?_⟩
          simp only [gt_iff_lt]
          by_cases previous : 2 < fds.get stream
          · simp only [previous, if_true, Kernel.mem_numbers_close, true_and]
            exact and_congr_left fun _ => List.mem_cons
          · simp only [previous, if_false, false_and, not_false_eq_true, and_true]
            exact List.mem_cons

theorem Fds.count_set (fds : Fds) (stream : Stream) (fd number : Int) :
    (fds.set stream fd).toList.count number + [fds.get stream].count number =
      fds.toList.count number + [fd].count number := by
  cases stream <;>
    simp only [Fds.set, Fds.get, Fds.toList, List.count_cons, List.count_nil] <;> omega

/-- A redirection moves the builder's claim to the new descriptor. -/
theorem Exclusive.redirect {stream : Stream} {mode : OpenMode}
    {complaint : CString → Option CString} {fds fds' : Fds} {filename : CString}
    (exclusive : Exclusive (fds.toList ++ extra) state)
    (redirected : redirectStream outcomes stream mode complaint fds filename state =
      (some fds', state')) :
    Exclusive (fds'.toList ++ extra) state' := by
  obtain ⟨fd, free, rfl, same, numbers⟩ := redirectStream_numbers redirected
  obtain ⟨present, once, apart⟩ := exclusive
  have claimed : state'.claimed = state.claimed := by
    rw [same]
    rfl
  have mine : fds.get stream ∈ fds.toList := by cases stream <;> simp [Fds.get, Fds.toList]
  have moved : ∀ number, 2 < number →
      ((fds.set stream fd).toList ++ extra).count number + [fds.get stream].count number =
        (fds.toList ++ extra).count number + [fd].count number := by
    intro number _
    have := fds.count_set stream fd number
    simp only [List.count_append]
    omega
  -- The new number is claimed nowhere else, the previous one nowhere any more.
  have unclaimed : 2 < fd → (fds.toList ++ extra).count fd = 0 ∧ fd ∉ state.claimed := by
    intro above
    refine ⟨List.count_eq_zero.mpr fun member => ?_, fun member => ?_⟩
    · exact free (present fd (List.mem_append_left _ member) above)
    · exact free (present fd (List.mem_append_right _ member) above)
  have absent : ∀ {number}, number ≠ fd → [fd].count number = 0 := fun other =>
    List.count_eq_zero.mpr (by simpa using other)
  constructor
  case once =>
    intro number above
    have same := moved number above
    have before := once number above
    by_cases new : number = fd
    · rw [new, List.count_singleton_self, (unclaimed (new ▸ above)).1] at same
      rw [new]
      omega
    · rw [absent new] at same
      omega
  case apart =>
    intro number member above
    rw [claimed]
    by_cases new : number = fd
    · exact new ▸ (unclaimed (new ▸ above)).2
    · refine apart number (List.count_pos_iff.mp ?_) above
      have same := moved number above
      have here := List.count_pos_iff.mpr member
      rw [absent new] at same
      omega
  case present =>
    intro number member above
    rw [claimed] at member
    refine (numbers number).mpr ⟨?_, ?_⟩
    · by_cases new : number = fd
      · exact .inl new
      · refine .inr (present number ?_ above)
        rcases List.mem_append.mp member with own | other
        · refine List.mem_append_left _ (List.count_pos_iff.mp ?_)
          have same := moved number above
          have here := List.count_pos_iff.mpr own
          rw [absent new] at same
          omega
        · exact List.mem_append_right _ other
    · rintro ⟨_, rfl⟩
      have old : fds.get stream ∈ state.kernel.numbers :=
        present _ (List.mem_append_left _ (List.mem_append_left _ mine)) above
      rcases List.mem_append.mp member with own | other
      · have same := moved _ above
        have before := once _ above
        have here := List.count_pos_iff.mpr own
        rw [List.count_singleton_self, absent fun same => free (same ▸ old)] at same
        omega
      · exact apart _ (List.mem_append_left _ mine) above other

/-- No call but that of the first stage, the last one built, claims a file of this stage. -/
theorem Pipeline.unclaimed_front {tree : Pipeline Labels.wired} {descriptor : Descriptor}
    (above : 2 < descriptor.number) (commandString : CString)
    (files : (tree.files.map (·.number)).Nodup)
    (free : descriptor.number ∉ pipeNumbers (tree.links.map (·.ends)))
    (held : descriptor ∈ tree.firstItems.redirected) {offset : Nat} (small : offset + 1 < tree.size)
    (bound : offset < (tree.calls commandString none none).length) :
    descriptor.number ∉ (tree.calls commandString none none)[offset].fds := by
  have total := tree.count_fds above commandString (show ∀ link ∈ (none : Option Link),
    link.readEnd ≠ descriptor.number by simp) (show ∀ link ∈ (none : Option Link),
    link.writeEnd ≠ descriptor.number by simp) free
  have atMost := List.nodup_iff_count_le_one.mp files descriptor.number
  cases tree with
  | mk name items next =>
      have notOutput : ∀ link ∈ next.link, link.writeEnd ≠ descriptor.number := by
        intro link linked same
        refine free (mem_pipeNumbers.mpr ⟨link.ends, List.mem_map_of_mem ?_, .inr same⟩)
        cases next with
        | last => cases linked
        | pipe other rest =>
            cases linked
            simp [Pipeline.links, Next.links]
      have own := stageCall_count_fds above name items commandString
        (show ∀ link ∈ (none : Option Link), link.readEnd ≠ descriptor.number by simp) notOutput
      have positive := List.count_pos_iff.mpr (List.mem_map_of_mem (f := (·.number)) held)
      rw [Pipeline.firstItems, ← own] at positive
      rw [Pipeline.calls, Option.or_none, List.flatMap_append, List.count_append,
        List.flatMap_singleton] at total
      have others : ((items.calls ++ next.calls none).flatMap CommandCall.fds).count
          descriptor.number = 0 := by omega
      have front : offset < (items.calls ++ next.calls none).length := by
        rw [List.length_append, Items.calls_length, Next.calls_length]
        rw [Pipeline.size] at small
        omega
      intro inside
      refine List.count_eq_zero.mp others (List.mem_flatMap.mpr ⟨_, List.getElem_mem front, ?_⟩)
      simpa only [Pipeline.calls, List.getElem_append_left front] using inside

/-- Nobody but its own call claims the file of a stage that has been parsed first. -/
theorem CallRead.unclaimed {commandString : CString} {ref : CallRef}
    {tree : Pipeline Labels.wired}
    (read : CallRead outcomes commandString true false state state' ref tree)
    (listed : state.Listed) (exclusive : Exclusive extra state) {descriptor : Descriptor}
    (held : descriptor ∈ tree.firstItems.redirected) :
    descriptor.number ∈ state'.kernel.numbers ∧ 2 < descriptor.number ∧
      descriptor.number ∉ extra ++ state'.claimed := by
  have file : descriptor ∈ tree.files := by
    cases tree with
    | mk name items next => exact List.mem_append_right _ held
  have above := read.wires.openedAbove descriptor file
  have counted := read.wires.descriptors
  simp only [List.count_nil, Nat.add_zero] at counted
  have opened : descriptor ∈ state'.kernel.descriptors := by
    have entered := List.count_pos_iff.mpr file
    exact List.count_pos_iff.mp (by have := counted descriptor; omega)
  have old : descriptor.number ∉ extra ++ state.claimed := by
    intro member
    obtain ⟨other, present, same⟩ := Kernel.mem_numbers.mp (exclusive.present _ member above)
    exact read.wires.apart present (List.mem_append_right _ file) same
  have distinct := read.wires.distinct
  rw [List.map_append, List.nodup_append] at distinct
  obtain ⟨_, files, noLink⟩ := distinct
  have free : descriptor.number ∉ pipeNumbers (tree.links.map (·.ends)) := by
    intro link
    obtain ⟨other, inside, same⟩ := mem_link_descriptors.mp link
    exact noLink _ (List.mem_map_of_mem inside) _ (List.mem_map_of_mem file) same
  refine ⟨Kernel.mem_numbers.mpr ⟨descriptor, opened, rfl⟩, above, fun member => ?_⟩
  rw [List.mem_append, not_or] at old
  rcases List.mem_append.mp member with mine | claims
  · exact old.1 mine
  rcases List.mem_append.mp claims with pipe | call
  · rw [read.wires.openPipes, pipeNumbers_append, List.mem_append] at pipe
    exact pipe.elim (fun before => old.2 (List.mem_append_left _ before)) free
  · have noLast : state'.lastParsedCommandCall = none := by
      rw [read.globals.lastCall, if_pos rfl]
    rw [noLast, Option.toList_none, List.append_nil, read.listed] at call
    obtain ⟨other, member, inside⟩ := List.mem_flatMap.mp call
    obtain ⟨before, new⟩ := call_of_heap read.heap
    rcases List.mem_append.mp member with earlier | later
    · rw [before other (listed other earlier)] at inside
      exact old.2 (List.mem_append_right _ (List.mem_flatMap.mpr
        ⟨other, List.mem_append_left _ earlier, inside⟩))
    · obtain ⟨⟨low, high⟩, _⟩ := mem_listedCalls.mp later
      obtain ⟨offset, rfl⟩ := Nat.exists_eq_add_of_le low
      have small : offset + 1 < tree.size := by
        have := Nat.lt_of_add_lt_add_left high
        omega
      have bound : offset < (tree.calls commandString none none).length := by
        rw [tree.calls_length]
        omega
      rw [new offset bound] at inside
      exact tree.unclaimed_front above commandString files free held small bound inside

/-- Closing what the fields of the freed first call of a substitution hold. -/
theorem CallRead.spoiled {commandString : CString} {ref : CallRef} {tree : Pipeline Labels.wired}
    {final : ParserState} (read : CallRead outcomes commandString true false state state' ref tree)
    (listed : state.Listed) (exclusive : Exclusive extra state)
    (claimed : final.claimed = state'.claimed)
    (closed : final.kernel =
      closeUnusedFileDescriptorsFromArray state'.kernel (outcomes.freed ref).toList) :
    Spoiled outcomes tree.firstItems.redirects extra final := by
  constructor
  case closed =>
    intro number above fields opened
    rw [closed] at opened
    exact (Kernel.mem_numbers_closeArray.mp opened).2 ⟨fields ref, above⟩
  case left =>
    intro redirects untouched
    obtain ⟨stream, held⟩ : ∃ stream, tree.firstItems.lastRedirection stream ≠ none := by
      by_contra unheld
      rw [(Items.lastRedirection_eq_none_iff _).mp (by simpa using unheld)] at redirects
      cases redirects
    obtain ⟨descriptor, chosen⟩ := Option.ne_none_iff_exists'.mp held
    have inside : descriptor ∈ tree.firstItems.redirected := by
      cases stream <;> simp [Items.redirected, heldDescriptors, chosen]
    obtain ⟨opened, above, unclaimed⟩ := read.unclaimed listed exclusive inside
    refine ⟨descriptor.number, ?_, above, claimed ▸ unclaimed⟩
    rw [closed]
    exact Kernel.mem_numbers_closeArray.mpr
      ⟨opened, fun both => untouched _ both.2 ref both.1⟩

theorem Exclusive.started (exclusive : Exclusive extra state) :
    Exclusive (newCommandCallBuilder.fds.toList ++ extra) state := by
  have unset : ∀ number, 2 < number → number ∉ newCommandCallBuilder.fds.toList := by
    intro number above
    simp only [newCommandCallBuilder, Fds.toList, uninitializedFd, List.mem_cons, List.not_mem_nil,
      or_false]
    omega
  constructor
  case present =>
    intro number member above
    rw [List.append_assoc] at member
    exact exclusive.present number ((List.mem_append.mp member).resolve_left (unset number above))
      above
  case once =>
    intro number above
    rw [List.count_append, List.count_eq_zero.mpr (unset number above), Nat.zero_add]
    exact exclusive.once number above
  case apart =>
    intro number member above
    exact exclusive.apart number
      ((List.mem_append.mp member).resolve_left (unset number above)) above

end Steps

/-! ## Coming to a freed call -/

/-- The token loop is refused on these tokens, after it has read a freed call. -/
def Refused (outcomes : FileOutcomes) (own redirected : Bool) (tokens : List CString)
    (opens pipes : Nat) : Prop :=
  ∀ context builder held before state extra, Ready context.insideSubstitution state →
    Holds builder.fds held state.kernel → before ≠ [] →
    (redirected = false → builder.fds.stdout = uninitializedFd) →
    (∀ token ∈ tokens, token ≠ [] ∧ ' ' ∉ token) →
    Exclusive (builder.fds.toList ++ extra) state → state.Listed →
    Succeed outcomes state opens pipes →
    ∃ state', parseTokens outcomes context builder before tokens state = (none, state') ∧
      Spoiled outcomes own extra state'

section Coming

variable {outcomes : FileOutcomes} {own redirected : Bool} {rest : List CString} {opens pipes : Nat}

theorem Refused.word (argument : Word) (ih : Refused outcomes own redirected rest opens pipes) :
    Refused outcomes own redirected (argument.text :: rest) opens pipes := by
  intro context builder held before state extra ready holds _ free clean exclusive listed succeed
  rw [parseTokens_word argument.ordinary]
  exact ih context builder held _ state extra ready holds (by simp) free
    (fun token member => clean token (.tail _ member)) exclusive listed succeed

theorem Refused.redirection (symbol : Redirection) (file : Word)
    (ih : Refused outcomes own (redirected || decide (symbol.stream = .stdout)) rest opens pipes) :
    Refused outcomes own redirected (symbol.text :: file.text :: rest) (1 + opens) pipes := by
  intro context builder held before state extra ready holds started free clean exclusive listed
    succeed
  obtain ⟨fds, state₁, opened⟩ := redirectStream_of_success (succeed.opens 0 (by omega))
    symbol.stream symbol.mode (symbol.complaint file.text) builder.fds file.text
  obtain ⟨descriptor, _, wires, holds', same⟩ := redirectStream_some ready.valid holds opened
  obtain ⟨_, _, _, fd, _, set⟩ := redirectStream_opened opened
  have inside : ¬ (file.text :: rest = [] ∨ before = []) := by simp [started]
  rw [parseTokens_redirection_text inside file.ordinary, List.headD_cons, parseRedirections_eq,
    opened]
  refine ih context { builder with fds } (redirect held symbol.stream descriptor) _ state₁ extra
    ⟨wires.valid, ?_, ?_⟩ holds' (by simp) ?_
    (fun token member => clean token (.tail _ (.tail _ member))) (exclusive.redirect opened) ?_ (Succeed.right (Nat.zero_add pipes ▸ succeed) ?_ ?_)
  · rw [same]
    exact ready.lastCall
  · rw [same]
    exact ready.lastCallSubstitution
  · intro kept
    obtain ⟨unredirected, other⟩ := Bool.or_eq_false_iff.mp kept
    rw [set]
    cases stream : symbol.stream with
    | stdout => simp [stream] at other
    | stdin => exact free unredirected
    | stderr => exact free unredirected
  · rw [same]
    exact listed
  · rw [wires.opensMade]
    simp
  · rw [wires.pipes]
    rfl

theorem Refused.substitution {body : Syntax} (placed : body.Placed true false)
    (ih : Refused outcomes own redirected rest opens pipes) :
    Refused outcomes own redirected
      (commandSubstitutionStart :: (body.words ++ commandSubstitutionEnd :: rest))
      (body.opens.length + opens) (1 + body.links.length + pipes) := by
  intro context builder held before state extra ready holds started free clean exclusive listed
    succeed
  have cleanBody : ∀ token ∈ body.words, token ≠ [] ∧ ' ' ∉ token :=
    fun token member => clean token (.tail _ (List.mem_append_left _ member))
  obtain ⟨nonempty, ordinary⟩ := body.words_head_ordinary (commandSubstitutionEnd :: rest)
  obtain ⟨builder', path, position, state₁, substituted⟩ :=
    parseCommandSubstitution_of_accepted ready.valid ready.lastCall placed cleanBody
      (fun state ready succeed => Pipeline.accepted body (words_joined cleanBody)
        (Pipeline.Placed.widen body placed) ready succeed (.inl rfl)) succeed.left
  obtain ⟨link, tree, read⟩ := (specifications outcomes).2.2 builder _ state _ _ _ _ ready.valid
    ready.lastCall (fun token member => clean token (.tail _ member)) substituted
  obtain ⟨same, after⟩ := Pipeline.words_injective body tree.erase
    (.inr ⟨rest, rfl⟩) (.inr ⟨_, rfl⟩) (by rw [Pipeline.words_erase]; exact read.split)
  have inside : ¬ (body.words ++ commandSubstitutionEnd :: rest = [] ∨ before = []) := by
    simp [started]
  have left : (body.words ++ commandSubstitutionEnd :: rest).drop (position + 1) = rest :=
    (List.cons.inj after).2.symm
  rw [parseTokens_substitution inside ordinary, substituted]
  simp only [left]
  have sameFds : builder'.fds = builder.fds := by rw [read.builder]
  refine ih context builder' held _ state₁ extra
    ⟨read.wires.valid, read.lastCall, fun _ => read.lastCallSubstitution⟩ ?_ (by simp)
    (fun unset => sameFds ▸ free unset)
    (fun token member => clean token (.tail _ (List.mem_append_right _ (.tail _ member)))) ?_
    (read.allocated listed) (succeed.right ?_ ?_)
  · rw [sameFds]
    refine holds.mono fun descriptor => ?_
    have count := read.wires.descriptors descriptor
    simp only [List.count_nil] at count
    omega
  · rw [sameFds]
    exact exclusive.grow read.wires fun number above =>
      read.mem_claimed ready.lastCall listed above
  · rw [read.wires.opensMade, same]
    simp
  · rw [read.wires.pipes, same, List.length_cons, Nat.add_comm tree.links.length]
    exact congrArg (fun count => state.kernel.pipes + (1 + count))
      (Pipeline.length_links_erase tree).symm

/-- A string that is parsed as a stage of its own. -/
theorem Refused.call {name : Word} (ih : Refused outcomes own false rest opens pipes)
    (clean : ∀ token ∈ name.text :: rest, token ≠ [] ∧ ' ' ∉ token)
    (insideSubstitution insidePipeline : Bool) {state : ParserState} {extra : List Int}
    (ready : Ready insideSubstitution state) (exclusive : Exclusive extra state)
    (listed : state.Listed) (succeed : Succeed outcomes state opens pipes) {commandString : CString}
    (tokens : words commandSeparator commandString = name.text :: rest) :
    ∃ state', parseCommandCall outcomes commandString insideSubstitution insidePipeline state =
      (none, state') ∧ Spoiled outcomes own extra state' := by
  rw [parseCommandCall_words (by simp [tokens]), tokens, parseTokens_word name.ordinary]
  exact ih _ _ (fun _ => none) _ state extra ready (holds_new _) (by simp) (fun _ => rfl)
    (fun token member => clean token (.tail _ member)) exclusive.started listed succeed

theorem Refused.pipe {name : Word} (ih : Refused outcomes own false rest opens pipes) :
    Refused outcomes own false (pipeSymbol :: name.text :: rest) opens pipes := by
  intro context builder held before state extra ready holds started free clean exclusive listed
    succeed
  have cleanRest : ∀ token ∈ name.text :: rest, token ≠ [] ∧ ' ' ∉ token :=
    fun token member => clean token (.tail _ member)
  have inside : ¬ (name.text :: rest = [] ∨ before = []) := by simp [started]
  obtain ⟨state₁, called, spoiled⟩ := ih.call cleanRest context.insideSubstitution true ready
    exclusive listed succeed (words_joined cleanRest)
  rw [parseTokens_pipe inside name.ordinary, if_neg (not_not.mpr (free rfl)), called]
  exact spoiled.refuse _

theorem concludeSubstitution_none (builder : CommandCallBuilder) (link : Link) (position : Nat)
    (state : ParserState) :
    concludeSubstitution outcomes builder link position (none, state) = (none, state) := by
  cases last : state.lastParsedCommandCallSubstitution <;> simp only [concludeSubstitution, last]

/-- The state in which the pipeline of a substitution is parsed. -/
theorem Exclusive.substituting {state : ParserState} {extra : List Int} {kernel : Kernel}
    {fd : Int × Int} (exclusive : Exclusive extra state) (valid : state.kernel.Valid)
    (created : state.kernel.pipe outcomes = (some fd, kernel)) :
    Exclusive extra (state.substituting kernel fd) :=
  exclusive.grow (wires_substituting valid created) fun number _ =>
    state.mem_claimed_substituting kernel fd number

theorem Succeed.substituting {state : ParserState} {kernel : Kernel} {fd : Int × Int}
    (succeed : Succeed outcomes state opens (1 + pipes))
    (created : state.kernel.pipe outcomes = (some fd, kernel)) :
    Succeed outcomes (state.substituting kernel fd) opens pipes := by
  obtain ⟨_, _, _, rfl⟩ := Kernel.pipe_some created
  exact Succeed.right (Nat.zero_add opens ▸ succeed) rfl rfl

theorem Refused.inside {name : Word} {after : List CString}
    (ended : substitutionEnd 0 (name.text :: rest ++ commandSubstitutionEnd :: after) =
      some (rest.length + 1))
    (ih : Refused outcomes own false rest opens pipes) :
    Refused outcomes own redirected
      (commandSubstitutionStart :: (name.text :: rest ++ commandSubstitutionEnd :: after)) opens
      (1 + pipes) := by
  intro context builder held before state extra ready holds started free clean exclusive listed
    succeed
  have cleanRest : ∀ token ∈ name.text :: rest, token ≠ [] ∧ ' ' ∉ token :=
    fun token member => clean token (.tail _ (List.mem_append_left _ member))
  have inside : ¬ (name.text :: rest ++ commandSubstitutionEnd :: after = [] ∨ before = []) := by
    simp [started]
  have taken : (name.text :: rest ++ commandSubstitutionEnd :: after).take (rest.length + 1) =
      name.text :: rest := List.take_left' rfl
  obtain ⟨fd, kernel, created⟩ := succeed.pipe
  have ready₁ : Ready true (state.substituting kernel fd) :=
    ⟨ready.valid.pipe created, ready.lastCall, fun _ => rfl⟩
  obtain ⟨state₁, called, spoiled⟩ := ih.call cleanRest true false ready₁
    (exclusive.substituting ready.valid created) listed (succeed.substituting created)
    (words_joined cleanRest)
  rw [parseTokens_substitution inside name.ordinary, parseCommandSubstitution_parsed ended created,
    taken, called, concludeSubstitution_none]
  exact spoiled.refuse _

theorem refused_freed {body : Syntax} {after : List CString} (placed : body.Placed true true)
    (redirects : ¬ body.Placed true false) :
    Refused outcomes body.firstItems.redirects redirected
      (commandSubstitutionStart :: (body.words ++ commandSubstitutionEnd :: after))
      body.opens.length (1 + body.links.length) := by
  intro context builder held before state extra ready holds started free clean exclusive listed
    succeed
  have cleanBody : ∀ token ∈ body.words, token ≠ [] ∧ ' ' ∉ token :=
    fun token member => clean token (.tail _ (List.mem_append_left _ member))
  obtain ⟨nonempty, ordinary⟩ := body.words_head_ordinary (commandSubstitutionEnd :: after)
  have inside : ¬ (body.words ++ commandSubstitutionEnd :: after = [] ∨ before = []) := by
    simp [started]
  obtain ⟨fd, kernel, created⟩ := succeed.pipe
  have ready₁ : Ready true (state.substituting kernel fd) :=
    ⟨ready.valid.pipe created, ready.lastCall, fun _ => rfl⟩
  obtain ⟨ref, state₁, called⟩ := Pipeline.accepted body (words_joined cleanBody)
    (show body.Placed (!false) true from placed) ready₁ (succeed.substituting created) (.inl rfl)
  obtain ⟨tree, read⟩ := parseCommandCall_read ready₁ called
  have same : tree.erase = body := by
    refine Syntax.unambiguous ?_
    rw [Pipeline.words_erase, read.words, words_joined cleanBody]
  have kept : (tree.lastCall (joinStrings body.words [' ']) none none).stdout ≠ stdoutFileno := by
    intro kept
    have narrow := Pipeline.Placed.narrow _ none tree read.placed read.wires.openedAbove kept
    exact redirects (same ▸ (Pipeline.placed_erase tree).mpr narrow)
  have last := read.globals.lastCallSubstitution
  rw [if_pos rfl] at last
  rw [parseTokens_substitution inside ordinary,
    parseCommandSubstitution_parsed (body.substitutionEnd_body after) created, List.take_left,
    called]
  simp only [concludeSubstitution, last, read.call_last, kept, ne_eq, not_false_eq_true, if_true]
  refine Spoiled.refuse _ ?_
  rw [← same, Pipeline.firstItems_erase, Items.redirects_erase]
  exact read.spoiled listed (exclusive.substituting ready.valid created) rfl rfl

end Coming

theorem ComesToFreed.refused (outcomes : FileOutcomes) {own redirected : Bool}
    {tokens : List CString} {opens pipes : Nat}
    (comes : ComesToFreed own redirected tokens opens pipes) :
    Refused outcomes own redirected tokens opens pipes := by
  induction comes with
  | word _ ih => exact ih.word _
  | redirection _ ih => exact ih.redirection _ _
  | substitution placed _ ih => exact ih.substitution placed
  | freed placed redirects own => exact own ▸ refused_freed placed redirects
  | inside ended _ ih => exact ih.inside ended
  | pipe _ ih => exact ih.pipe

/-- A command string on which a freed call is read is rejected. -/
theorem ReadsFreedCall.rejected {outcomes : FileOutcomes} {commandString : CString}
    {state : ParserState} {own : Bool} (valid : state.kernel.Valid)
    (reads : ReadsFreedCall outcomes commandString state own) :
    ∃ state', parseCommand outcomes commandString state = (none, state') ∧
      (∀ number, 2 < number → (∀ ref, number ∈ (outcomes.freed ref).toList) →
        number ∉ state'.kernel.numbers) ∧
      (own = true → (∀ number, Untouched outcomes number) →
        ∃ number ∈ state'.kernel.numbers, number ∉ state.kernel.numbers) := by
  obtain ⟨name, rest, tokens, opens, pipes, comes, succeed⟩ := reads
  rw [← words_commandSeparator] at tokens
  have clean := words_clean commandSeparator_single commandString
  rw [tokens] at clean
  have nonblank : newEmptyCommand commandString = true :=
    newEmptyCommand_of_words (by simp [tokens])
  have exclusive : Exclusive state.kernel.numbers state.entering := by
    constructor
    case present =>
      intro number member _
      simpa [ParserState.claimed, ParserState.entering, pipeNumbers] using member
    case once => exact fun number _ => List.nodup_iff_count_le_one.mp valid.distinct number
    case apart => simp [ParserState.claimed, ParserState.entering, pipeNumbers]
  obtain ⟨state₁, called, spoiled⟩ := (comes.refused outcomes).call clean false false
    (ready_entering valid) exclusive (by simp [ParserState.Listed, ParserState.entering])
    ⟨succeed.opens, succeed.pipes⟩ tokens
  obtain ⟨state', concluded, closes⟩ := concludeCommand_none commandString state₁
  rw [parseCommand_eq nonblank, called, concluded]
  refine ⟨state', rfl, fun number above fields opened => ?_, fun redirects untouched => ?_⟩
  · obtain ⟨descriptor, member, rfl⟩ := Kernel.mem_numbers.mp opened
    rw [closes, mem_closePipes, mem_closeUnusedFileDescriptors] at member
    exact spoiled.closed _ above fields (Kernel.mem_numbers.mpr ⟨descriptor, member.1.1, rfl⟩)
  · obtain ⟨number, opened, above, unclaimed⟩ := spoiled.left redirects untouched
    rw [List.mem_append, ParserState.claimed, List.mem_append, not_or, not_or] at unclaimed
    obtain ⟨old, noPipe, noCall⟩ := unclaimed
    obtain ⟨descriptor, member, rfl⟩ := Kernel.mem_numbers.mp opened
    refine ⟨descriptor.number, Kernel.mem_numbers.mpr ⟨descriptor, ?_, rfl⟩, old⟩
    rw [closes, mem_closePipes, mem_closeUnusedFileDescriptors, List.flatMap_map]
    exact ⟨⟨member, fun call => noCall call.1⟩, noPipe⟩

end Jsh
