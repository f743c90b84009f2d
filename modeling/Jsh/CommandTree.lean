import Mathlib.Logic.Relation
import Jsh.Acceptance

/-!
# The calls of an accepted command

The calls are those of the stages of the command string's tree. Each pipe has one
writer and one reader, and following the pipes leads from every call to the last
stage of the pipeline.
-/

set_option autoImplicit false

namespace Jsh

/-! ## Pipes of the calls of a tree -/

def linkIndices (links : List Link) : List Nat := links.map (·.index)

@[simp] theorem linkIndices_nil : linkIndices [] = [] := rfl

@[simp] theorem linkIndices_cons (link : Link) (links : List Link) :
    linkIndices (link :: links) = link.index :: linkIndices links := rfl

@[simp] theorem linkIndices_append (left right : List Link) :
    linkIndices (left ++ right) = linkIndices left ++ linkIndices right := List.map_append

@[simp] theorem toList_map_index (link : Option Link) :
    (link.map (·.index)).toList = linkIndices link.toList := by
  cases link <;> rfl

@[simp] theorem stageCall_readingPipes (name : Word) (items : Items Labels.wired)
    (commandString : CString) (input output : Option Link) :
    (stageCall name items commandString input output).readingPipes =
      linkIndices items.readLinks ++ linkIndices input.toList := by
  simp [stageCall, linkIndices]

@[simp] theorem stageCall_writingPipes (name : Word) (items : Items Labels.wired)
    (commandString : CString) (input output : Option Link) :
    (stageCall name items commandString input output).writingPipes =
      linkIndices output.toList := by
  simp [stageCall]

mutual

/-- Every link of a tree, and the one at its end, is written to once. -/
theorem Pipeline.count_writingPipes (index : Nat) (commandString : CString)
    (input output : Option Link) : ∀ tree : Pipeline Labels.wired,
      ((tree.calls commandString input output).flatMap (·.writingPipes)).count index =
        (linkIndices tree.links).count index + (linkIndices output.toList).count index
  | .mk name items .last => by
      have nested := Items.count_writingPipes index items
      simp [Pipeline.calls, Pipeline.links, Next.calls, Next.links, Next.link, nested]
  | .mk name items (.pipe link rest) => by
      have nested := Items.count_writingPipes index items
      have following := Pipeline.count_writingPipes index (joinStrings rest.words [' ']) (some link)
        output rest
      simp only [Pipeline.calls, Pipeline.links, Next.calls, Next.links, Next.link, Option.some_or,
        List.flatMap_append, List.flatMap_singleton, stageCall_writingPipes, linkIndices_append,
        List.count_append, Option.toList_some]
      omega

theorem Items.count_writingPipes (index : Nat) : ∀ items : Items Labels.wired,
    (items.calls.flatMap (·.writingPipes)).count index = (linkIndices items.links).count index
  | .nil => rfl
  | .word _ rest => Items.count_writingPipes index rest
  | .redirection _ _ _ rest => Items.count_writingPipes index rest
  | .substitution link body rest => by
      have inner := Pipeline.count_writingPipes index (joinStrings body.words [' ']) none
        (some link) body
      have others := Items.count_writingPipes index rest
      simp only [Items.calls, Items.links, List.flatMap_append, List.count_append,
        linkIndices_append, linkIndices_cons, linkIndices_nil, List.count_cons, List.count_nil,
        Option.toList_some] at inner ⊢
      omega

end

mutual

/-- Every link of a tree, and the one at its front, is read from once. -/
theorem Pipeline.count_readingPipes (index : Nat) (commandString : CString)
    (input output : Option Link) : ∀ tree : Pipeline Labels.wired,
      ((tree.calls commandString input output).flatMap (·.readingPipes)).count index =
        (linkIndices tree.links).count index + (linkIndices input.toList).count index
  | .mk name items .last => by
      have nested := Items.count_readingPipes index items
      simp only [Pipeline.calls, Pipeline.links, Next.calls, Next.links, List.flatMap_append,
        List.flatMap_singleton, stageCall_readingPipes, linkIndices_append, List.count_append,
        List.flatMap_nil, linkIndices_nil, List.count_nil]
      omega
  | .mk name items (.pipe link rest) => by
      have nested := Items.count_readingPipes index items
      have following := Pipeline.count_readingPipes index (joinStrings rest.words [' ']) (some link)
        output rest
      simp only [Pipeline.calls, Pipeline.links, Next.calls, Next.links, List.flatMap_append,
        List.flatMap_singleton, stageCall_readingPipes, linkIndices_append, linkIndices_cons,
        linkIndices_nil, List.count_append, Option.toList_some] at following ⊢
      omega

theorem Items.count_readingPipes (index : Nat) : ∀ items : Items Labels.wired,
    (items.calls.flatMap (·.readingPipes)).count index +
        (linkIndices items.readLinks).count index =
      (linkIndices items.links).count index
  | .nil => rfl
  | .word _ rest => Items.count_readingPipes index rest
  | .redirection _ _ _ rest => Items.count_readingPipes index rest
  | .substitution link body rest => by
      have inner := Pipeline.count_readingPipes index (joinStrings body.words [' ']) none
        (some link) body
      have others := Items.count_readingPipes index rest
      simp only [Items.calls, Items.links, Items.readLinks, List.flatMap_append, List.count_append,
        linkIndices_append, linkIndices_cons, linkIndices_nil, List.count_cons, List.count_nil,
        Option.toList_none] at inner ⊢
      omega

end

theorem Items.count_readLinks_le (index : Nat) : ∀ items : Items Labels.wired,
    (linkIndices items.readLinks).count index ≤ (linkIndices items.links).count index :=
  fun items => Items.count_readingPipes index items ▸ Nat.le_add_left _ _

mutual

/-- The ends a single call has hold different links. -/
theorem Pipeline.count_ends_le (index : Nat) (commandString : CString)
    (input output : Option Link) : ∀ (tree : Pipeline Labels.wired) (call : CommandCall),
      call ∈ tree.calls commandString input output →
        call.readingPipes.count index + call.writingPipes.count index ≤
          (linkIndices tree.links).count index + (linkIndices input.toList).count index +
            (linkIndices output.toList).count index
  | .mk name items .last, call, member => by
      have own := Items.count_readLinks_le index items
      simp only [Pipeline.calls, Next.calls, List.append_nil, List.mem_append,
        List.mem_singleton] at member
      simp only [Pipeline.links, Next.links, linkIndices_append, List.count_append,
        linkIndices_nil, List.count_nil]
      rcases member with member | rfl
      · have nested := Items.count_ends_le index items call member
        omega
      · simp only [stageCall_readingPipes, stageCall_writingPipes, Next.link, Option.none_or,
          List.count_append]
        omega
  | .mk name items (.pipe link rest), call, member => by
      have own := Items.count_readLinks_le index items
      simp only [Pipeline.calls, Next.calls, List.mem_append, List.mem_singleton] at member
      simp only [Pipeline.links, Next.links, linkIndices_append, List.count_append]
      rcases member with (member | member) | rfl
      · have nested := Items.count_ends_le index items call member
        omega
      · have following := Pipeline.count_ends_le index (joinStrings rest.words [' ']) (some link)
          output rest call member
        simp only [Option.toList_some] at following
        omega
      · simp only [stageCall_readingPipes, stageCall_writingPipes, Next.link, Option.some_or,
          List.count_append, Option.toList_some]
        omega

theorem Items.count_ends_le (index : Nat) : ∀ (items : Items Labels.wired) (call : CommandCall),
    call ∈ items.calls →
      call.readingPipes.count index + call.writingPipes.count index ≤
        (linkIndices items.links).count index
  | .nil, _, member => by simp [Items.calls] at member
  | .word _ rest, call, member => Items.count_ends_le index rest call member
  | .redirection _ _ _ rest, call, member => Items.count_ends_le index rest call member
  | .substitution link body rest, call, member => by
      simp only [Items.calls, List.mem_append] at member
      simp only [Items.links, linkIndices_append, linkIndices_cons, List.count_append,
        List.count_cons, List.cons_append]
      rcases member with member | member
      · have inner := Pipeline.count_ends_le index (joinStrings body.words [' ']) none
          (some link) body call member
        simp only [Option.toList_some, Option.toList_none, linkIndices_cons, linkIndices_nil,
          List.count_cons, List.count_nil] at inner
        omega
      · have others := Items.count_ends_le index rest call member
        omega

end

/-- A call writes only to its standard output. -/
def WritesTo (links : List Link) (call : CommandCall) : Prop :=
  ∀ index ∈ call.writingPipes, ∃ link ∈ links, link.index = index ∧ call.stdout = link.writeEnd

/-- A call reads from its standard input, or from the files its arguments name. -/
def ReadsFrom (links : List Link) (call : CommandCall) : Prop :=
  ∀ index ∈ call.readingPipes, ∃ link ∈ links, link.index = index ∧
    (call.stdin = link.readEnd ∨ devFile link.readEnd ∈ call.argv.tail)

theorem WritesTo.mono {links links' : List Link} {call : CommandCall} (writes : WritesTo links call)
    (subset : links ⊆ links') : WritesTo links' call := by
  intro index member
  obtain ⟨link, here, same⟩ := writes index member
  exact ⟨link, subset here, same⟩

theorem ReadsFrom.mono {links links' : List Link} {call : CommandCall}
    (reads : ReadsFrom links call) (subset : links ⊆ links') : ReadsFrom links' call := by
  intro index member
  obtain ⟨link, here, same⟩ := reads index member
  exact ⟨link, subset here, same⟩

theorem stageCall_writesTo {name : Word} {items : Items Labels.wired} {commandString : CString}
    {input output : Option Link} (free : output ≠ none → items.lastRedirection .stdout = none) :
    WritesTo output.toList (stageCall name items commandString input output) := by
  intro index member
  cases output with
  | none => simp at member
  | some link =>
      simp only [stageCall_writingPipes, Option.toList_some, linkIndices_cons, linkIndices_nil,
        List.mem_singleton] at member
      exact ⟨link, by simp, member.symm, by simp [stageCall, free]⟩

theorem Items.readLinks_subset : ∀ items : Items Labels.wired, items.readLinks ⊆ items.links
  | .nil => fun _ member => member
  | .word _ rest => Items.readLinks_subset rest
  | .redirection _ _ _ rest => Items.readLinks_subset rest
  | .substitution link body rest => by
      have others := Items.readLinks_subset rest
      intro other member
      simp only [Items.readLinks, List.mem_cons] at member
      simp only [Items.links, List.cons_append, List.mem_cons, List.mem_append]
      exact member.imp_right fun later => .inr (others later)

theorem Items.devFile_mem_arguments : ∀ (items : Items Labels.wired) (link : Link),
    link ∈ items.readLinks → devFile link.readEnd ∈ items.arguments
  | .nil, _, member => by simp [Items.readLinks] at member
  | .word _ rest, link, member => .tail _ (Items.devFile_mem_arguments rest link member)
  | .redirection _ _ _ rest, link, member => Items.devFile_mem_arguments rest link member
  | .substitution first body rest, link, member => by
      simp only [Items.readLinks, List.mem_cons] at member
      rcases member with rfl | later
      · exact .head _
      · exact .tail _ (Items.devFile_mem_arguments rest link later)

theorem stageCall_readsFrom {name : Word} {items : Items Labels.wired} {commandString : CString}
    {input output : Option Link} (free : input ≠ none → items.lastRedirection .stdin = none) :
    ReadsFrom (items.links ++ input.toList) (stageCall name items commandString input output) := by
  intro index member
  simp only [stageCall_readingPipes, List.mem_append] at member
  rcases member with member | member
  · obtain ⟨link, here, rfl⟩ := List.mem_map.mp member
    exact ⟨link, List.mem_append_left _ (Items.readLinks_subset items here), rfl,
      .inr (Items.devFile_mem_arguments items link here)⟩
  · cases input with
    | none => simp at member
    | some link =>
        simp only [Option.toList_some, linkIndices_cons, linkIndices_nil,
          List.mem_singleton] at member
        exact ⟨link, by simp, member.symm, .inl (by simp [stageCall, free])⟩

mutual

/-- The ends of the links are those their calls use. -/
theorem Pipeline.calls_linked (commandString : CString) {input output : Option Link} :
    ∀ {stdin stdout : Bool} (tree : Pipeline Labels.wired), tree.Placed stdin stdout →
      (input ≠ none → stdin = false) → (output ≠ none → stdout = false) →
      ∀ call ∈ tree.calls commandString input output,
        WritesTo (tree.links ++ output.toList) call ∧ ReadsFrom (tree.links ++ input.toList) call
  | stdin, stdout, .mk name items .last, placed, front, back, call, member => by
      simp only [Pipeline.Placed, Next.isLast, Bool.and_true] at placed
      simp only [Pipeline.calls, Next.calls, Next.link, List.append_nil, List.mem_append,
        List.mem_singleton, Option.none_or] at member
      simp only [Pipeline.links, Next.links, List.append_nil]
      rcases member with member | rfl
      · obtain ⟨writes, reads⟩ := Items.calls_linked items placed.1 call member
        exact ⟨writes.mono (by simp), reads.mono (by simp)⟩
      · refine ⟨(stageCall_writesTo fun linked => ?_).mono (by simp),
          stageCall_readsFrom fun linked => ?_⟩
        · rw [back linked] at placed
          exact Items.lastRedirection_stdout_of_placed items placed.1
        · rw [front linked] at placed
          exact Items.lastRedirection_stdin_of_placed items placed.1
  | stdin, stdout, .mk name items (.pipe link rest), placed, front, back, call, member => by
      simp only [Pipeline.Placed, Next.Placed, Next.isLast, Bool.and_false] at placed
      simp only [Pipeline.calls, Next.calls, Next.link, List.mem_append, List.mem_singleton,
        Option.some_or] at member
      simp only [Pipeline.links, Next.links]
      rcases member with (member | member) | rfl
      · obtain ⟨writes, reads⟩ := Items.calls_linked items placed.1 call member
        exact ⟨writes.mono (by simp), reads.mono (by simp)⟩
      · obtain ⟨writes, reads⟩ := Pipeline.calls_linked (joinStrings rest.words [' ']) rest
          placed.2 (fun _ => rfl) back call member
        refine ⟨writes.mono ?_, reads.mono ?_⟩
        · intro other here
          simp only [List.mem_append] at here ⊢
          tauto
        · intro other here
          simp only [Option.toList_some, List.mem_append] at here ⊢
          tauto
      · refine ⟨(stageCall_writesTo fun _ => ?_).mono (by simp),
          (stageCall_readsFrom fun linked => ?_).mono ?_⟩
        · exact Items.lastRedirection_stdout_of_placed items placed.1
        · rw [front linked] at placed
          exact Items.lastRedirection_stdin_of_placed items placed.1
        · intro other here
          simp only [List.mem_append] at here ⊢
          tauto

theorem Items.calls_linked : ∀ {stdin stdout : Bool} (items : Items Labels.wired),
    items.Placed stdin stdout → ∀ call ∈ items.calls,
      WritesTo items.links call ∧ ReadsFrom items.links call
  | _, _, .nil, _, _, member => by simp [Items.calls] at member
  | _, _, .word _ rest, placed, call, member => Items.calls_linked rest placed call member
  | _, _, .redirection _ _ _ rest, placed, call, member =>
      Items.calls_linked rest placed.2.2 call member
  | _, _, .substitution link body rest, placed, call, member => by
      simp only [Items.Placed] at placed
      simp only [Items.calls, List.mem_append] at member
      simp only [Items.links]
      rcases member with member | member
      · obtain ⟨writes, reads⟩ := Pipeline.calls_linked (joinStrings body.words [' ']) body placed.1
          (fun impossible => absurd rfl impossible) (fun _ => rfl) call member
        refine ⟨writes.mono ?_, reads.mono ?_⟩
        · intro other here
          simp only [Option.toList_some, List.mem_append, List.cons_append,
            List.mem_cons] at here ⊢
          tauto
        · intro other here
          simp only [Option.toList_none, List.append_nil, List.mem_append, List.cons_append,
            List.mem_cons] at here ⊢
          tauto
      · obtain ⟨writes, reads⟩ := Items.calls_linked rest placed.2 call member
        exact ⟨writes.mono (by simp), reads.mono (by simp)⟩

end

/-! ## The root -/

/-- `writer` writes to a pipe that `reader`, one of `calls`, reads from. -/
def Feeds (calls : List CommandCall) (writer reader : CommandCall) : Prop :=
  reader ∈ calls ∧ ∃ index ∈ writer.writingPipes, index ∈ reader.readingPipes

theorem Pipeline.exists_reader (commandString : CString) (link : Link) (output : Option Link)
    (tree : Pipeline Labels.wired) :
    ∃ first ∈ tree.calls commandString (some link) output, link.index ∈ first.readingPipes := by
  cases tree with
  | mk name items next =>
      exact ⟨stageCall name items commandString (some link) (next.link.or output),
        by simp [Pipeline.calls], by simp⟩

theorem Pipeline.lastCall_writingPipes (commandString : CString) (input output : Option Link) :
    ∀ tree : Pipeline Labels.wired,
      (tree.lastCall commandString input output).writingPipes = linkIndices output.toList
  | .mk name items .last => by simp [Pipeline.lastCall, Next.lastCall]
  | .mk name items (.pipe link rest) => by
      simp only [Pipeline.lastCall, Next.lastCall]
      exact Pipeline.lastCall_writingPipes _ _ _ rest

mutual

/-- Following the pipes leads from every call of a pipeline to its last stage. -/
theorem Pipeline.feeds_lastCall (commandString : CString) (input output : Option Link)
    {calls : List CommandCall} : ∀ tree : Pipeline Labels.wired,
      tree.calls commandString input output ⊆ calls →
      ∀ call ∈ tree.calls commandString input output,
        Relation.ReflTransGen (Feeds calls) call (tree.lastCall commandString input output)
  | .mk name items .last, subset, call, member => by
      simp only [Pipeline.calls, Next.calls, Next.link, List.append_nil, Option.none_or] at subset member
      simp only [Pipeline.lastCall, Next.lastCall]
      rcases List.mem_append.mp member with nested | own
      · exact Items.feeds_stage items (stageCall name items commandString input output)
          (subset (by simp)) (by simp) (fun other here => subset (List.mem_append_left _ here)) call
          nested
      · rw [List.mem_singleton.mp own]
  | .mk name items (.pipe link rest), subset, call, member => by
      simp only [Pipeline.calls, Next.calls, Next.link, Option.some_or] at subset member
      simp only [Pipeline.lastCall, Next.lastCall]
      have later : rest.calls (joinStrings rest.words [' ']) (some link) output ⊆ calls :=
        fun other here => subset (by simp [here])
      obtain ⟨first, front, reads⟩ := rest.exists_reader (joinStrings rest.words [' ']) link output
      have stage : Relation.ReflTransGen (Feeds calls)
          (stageCall name items commandString input (some link))
          (rest.lastCall (joinStrings rest.words [' ']) (some link) output) :=
        .head ⟨later front, link.index, by simp, reads⟩
          (Pipeline.feeds_lastCall _ _ _ rest later first front)
      rcases List.mem_append.mp member with before | own
      · rcases List.mem_append.mp before with nested | following
        · exact (Items.feeds_stage items (stageCall name items commandString input (some link))
            (subset (by simp)) (by simp) (fun other here => subset (by simp [here])) call
            nested).trans stage
        · exact Pipeline.feeds_lastCall _ _ _ rest later call following
      · rw [List.mem_singleton.mp own]
        exact stage

/-- Following the pipes leads from the calls of a stage's substitutions to the stage. -/
theorem Items.feeds_stage {calls : List CommandCall} : ∀ (items : Items Labels.wired)
    (stage : CommandCall), stage ∈ calls → linkIndices items.readLinks ⊆ stage.readingPipes →
    items.calls ⊆ calls → ∀ call ∈ items.calls,
      Relation.ReflTransGen (Feeds calls) call stage
  | .nil, _, _, _, _, _, member => by simp [Items.calls] at member
  | .word _ rest, stage, here, reads, subset, call, member =>
      Items.feeds_stage rest stage here reads subset call member
  | .redirection _ _ _ rest, stage, here, reads, subset, call, member =>
      Items.feeds_stage rest stage here reads subset call member
  | .substitution link body rest, stage, here, reads, subset, call, member => by
      simp only [Items.calls, List.mem_append] at member subset
      simp only [Items.readLinks, linkIndices_cons] at reads
      rcases member with member | member
      · refine (Pipeline.feeds_lastCall _ none (some link) body
          (fun other inside => subset (List.mem_append_left _ inside)) call member).tail ?_
        refine ⟨here, link.index, ?_, reads (.head _)⟩
        simp [Pipeline.lastCall_writingPipes]
      · exact Items.feeds_stage rest stage here (fun index inside => reads (.tail _ inside))
          (fun other inside => subset (List.mem_append_right _ inside)) call member

end

mutual

/-- A call writes to one pipe, except for that of the last stage of a pipeline that
leads nowhere. -/
theorem Pipeline.countP_writingPipes (commandString : CString) (input output : Option Link) :
    ∀ tree : Pipeline Labels.wired,
      (tree.calls commandString input output).countP (·.writingPipes.isEmpty) =
          (if output = none then 1 else 0) ∧
        ∀ call ∈ tree.calls commandString input output, call.writingPipes.length ≤ 1
  | .mk name items .last => by
      have nested := Items.countP_writingPipes items
      simp only [Pipeline.calls, Next.calls, Next.link, List.append_nil, List.countP_append,
        Option.none_or, nested.1]
      refine ⟨by cases output <;> simp, fun call member => ?_⟩
      rcases List.mem_append.mp member with inside | own
      · exact nested.2 call inside
      · rw [List.mem_singleton.mp own]
        cases output <;> simp
  | .mk name items (.pipe link rest) => by
      have nested := Items.countP_writingPipes items
      have following := Pipeline.countP_writingPipes (joinStrings rest.words [' ']) (some link) output
        rest
      simp only [Pipeline.calls, Next.calls, Next.link, List.countP_append, Option.some_or,
        nested.1, following.1]
      refine ⟨by simp, fun call member => ?_⟩
      rcases List.mem_append.mp member with before | own
      · rcases List.mem_append.mp before with inside | later
        · exact nested.2 call inside
        · exact following.2 call later
      · rw [List.mem_singleton.mp own]
        simp

theorem Items.countP_writingPipes : ∀ items : Items Labels.wired,
    items.calls.countP (·.writingPipes.isEmpty) = 0 ∧
      ∀ call ∈ items.calls, call.writingPipes.length ≤ 1
  | .nil => ⟨rfl, by simp [Items.calls]⟩
  | .word _ rest => Items.countP_writingPipes rest
  | .redirection _ _ _ rest => Items.countP_writingPipes rest
  | .substitution link body rest => by
      have inner := Pipeline.countP_writingPipes (joinStrings body.words [' ']) none (some link) body
      have others := Items.countP_writingPipes rest
      simp only [Items.calls, List.countP_append, inner.1, others.1]
      refine ⟨by simp, fun call member => ?_⟩
      rcases List.mem_append.mp member with inside | later
      · exact inner.2 call inside
      · exact others.2 call later

end

mutual

/-- Every call of a tree is that of a stage. -/
theorem Pipeline.forall_calls (property : CommandCall → Prop)
    (stage : ∀ name items commandString input output,
      property (stageCall name items commandString input output))
    (commandString : CString) (input output : Option Link) :
    ∀ tree : Pipeline Labels.wired, ∀ call ∈ tree.calls commandString input output, property call
  | .mk name items .last, call, member => by
      simp only [Pipeline.calls, Next.calls, List.append_nil, List.mem_append,
        List.mem_singleton] at member
      rcases member with nested | rfl
      · exact Items.forall_calls property stage items call nested
      · exact stage _ _ _ _ _
  | .mk name items (.pipe link rest), call, member => by
      simp only [Pipeline.calls, Next.calls, List.mem_append, List.mem_singleton] at member
      rcases member with (nested | following) | rfl
      · exact Items.forall_calls property stage items call nested
      · exact Pipeline.forall_calls property stage _ _ _ rest call following
      · exact stage _ _ _ _ _

theorem Items.forall_calls (property : CommandCall → Prop)
    (stage : ∀ name items commandString input output,
      property (stageCall name items commandString input output)) :
    ∀ items : Items Labels.wired, ∀ call ∈ items.calls, property call
  | .nil, _, member => by simp [Items.calls] at member
  | .word _ rest, call, member => Items.forall_calls property stage rest call member
  | .redirection _ _ _ rest, call, member => Items.forall_calls property stage rest call member
  | .substitution link body rest, call, member => by
      simp only [Items.calls, List.mem_append] at member
      rcases member with inner | others
      · exact Pipeline.forall_calls property stage _ _ _ body call inner
      · exact Items.forall_calls property stage rest call others

end

/-! ## The command -/

/-- In a fresh shell the calls of an accepted command are those of the stages of its
syntax tree, each once, that of the last stage of the pipeline first. The labels of
the wired tree are the pipes and files opened for it. -/
theorem calls_of_accepted_command {outcomes : FileOutcomes} {commandString : CString}
    {state state' : ParserState} {command : Command} (fresh : FreshShell state)
    (accepted : parseCommand outcomes commandString state = (some command, state')) :
    ∃ tree : Pipeline Labels.wired,
      tree.words = runs commandString ∧ tree.Placed true true ∧
      (∀ other : Syntax, other.words = runs commandString → other = tree.erase) ∧
      tree.links.map (·.index) = List.range command.openPipes.length ∧
      tree.links.map (·.ends) = command.openPipes ∧
      tree.redirections.map (·.file) =
        (List.range' state.kernel.opens.length tree.opens.length).map OpenFile.file ∧
      (∀ descriptor ∈ tree.files, descriptor ∈ state'.kernel.descriptors) ∧
      command.commandCalls.Perm (tree.calls commandString none none) ∧
      command.commandCalls.length = tree.size ∧
      command.commandCalls.head? = some (tree.lastCall commandString none none) ∧
      ∀ call ∈ command.commandCalls, 1 ≤ call.argc ∧ call.argc = call.argv.length := by
  obtain ⟨tree, read⟩ := parseCommand_some fresh.valid accepted
  refine ⟨tree, ?_, read.placed, ?_, ?_, read.openPipes.symm, read.wires.files, ?_, read.perm, ?_,
    read.first, ?_⟩
  · rw [read.words, words_commandSeparator]
  · intro other same
    refine Syntax.unambiguous ?_
    rw [same, Pipeline.words_erase, read.words, words_commandSeparator]
  · rw [read.openPipes, List.length_map, List.range_eq_range', read.wires.indices]
    rfl
  · intro descriptor member
    have counted := read.wires.descriptors descriptor
    have present := List.count_pos_iff.mpr member
    simp only [List.count_nil] at counted
    exact List.count_pos_iff.mp (by omega)
  · rw [read.perm.length_eq, Pipeline.calls_length]
  · intro call member
    refine Pipeline.forall_calls (fun call => 1 ≤ call.argc ∧ call.argc = call.argv.length)
      (fun name items string input output => ?_) commandString none none tree call
      (read.perm.subset member)
    simp [stageCall]

theorem calls_of_accepted_substitutions :
    ∃ command state', parseCommand .allSucceed "a <( b | c <( e ) ) | f > g".toList startedShell =
        (some command, state') ∧
      ∃ tree : Pipeline Labels.wired, command.commandCalls.length = tree.size := by
  obtain ⟨command, state', accepted⟩ := exists_of_isSome (show (parseCommand .allSucceed
    "a <( b | c <( e ) ) | f > g".toList startedShell).1.isSome = true by decide +kernel)
  obtain ⟨tree, _, _, _, _, _, _, _, _, length, _⟩ :=
    calls_of_accepted_command fresh_startedShell accepted
  exact ⟨command, state', accepted, tree, length⟩

/-- A call of a command, by its position, writes to a pipe that another one reads from. -/
def Command.Feeds (command : Command) (writer reader : Fin command.commandCalls.length) : Prop :=
  ∃ index ∈ (command.commandCalls.get writer).writingPipes,
    index ∈ (command.commandCalls.get reader).readingPipes

/-- The pipes of a command make its calls a tree whose root is the first call. -/
structure Command.Tree (command : Command) : Prop where
  written : ∀ (index : Nat) (bound : index < command.openPipes.length),
    ∃ writer : Fin command.commandCalls.length,
      index ∈ (command.commandCalls.get writer).writingPipes ∧
      (command.commandCalls.get writer).stdout = command.openPipes[index].2 ∧
      ∀ other : Fin command.commandCalls.length,
        index ∈ (command.commandCalls.get other).writingPipes → other = writer
  read : ∀ (index : Nat) (bound : index < command.openPipes.length),
    ∃ reader : Fin command.commandCalls.length,
      index ∈ (command.commandCalls.get reader).readingPipes ∧
      ((command.commandCalls.get reader).stdin = command.openPipes[index].1 ∨
        devFile command.openPipes[index].1 ∈ (command.commandCalls.get reader).argv.tail) ∧
      ∀ other : Fin command.commandCalls.length,
        index ∈ (command.commandCalls.get other).readingPipes → other = reader
  different : ∀ call ∈ command.commandCalls, ∀ index ∈ call.writingPipes,
    index ∉ call.readingPipes
  bounded : ∀ call ∈ command.commandCalls, ∀ index ∈ call.readingPipes ++ call.writingPipes,
    index < command.openPipes.length
  writesOne : ∀ call : Fin command.commandCalls.length, call.val ≠ 0 →
    (command.commandCalls.get call).writingPipes.length = 1
  rooted : ∃ root : Fin command.commandCalls.length, root.val = 0 ∧
    (command.commandCalls.get root).writingPipes = [] ∧
    ∀ call, Relation.ReflTransGen command.Feeds call root

private theorem exists_unique_position {calls : List CommandCall} {pipes : CommandCall → List Nat}
    {index : Nat} (once : (calls.flatMap pipes).count index = 1) :
    ∃ position : Fin calls.length, index ∈ pipes (calls.get position) ∧
      ∀ other : Fin calls.length, index ∈ pipes (calls.get other) → other = position := by
  induction calls with
  | nil => simp at once
  | cons call calls ih =>
      rw [List.flatMap_cons, List.count_append] at once
      by_cases here : index ∈ pipes call
      · have positive := List.count_pos_iff.mpr here
        have absent : index ∉ calls.flatMap pipes := List.count_eq_zero.mp (by omega)
        refine ⟨⟨0, by simp⟩, here, fun other member => ?_⟩
        obtain ⟨position, bound⟩ := other
        cases position with
        | zero => rfl
        | succ position =>
            have bound' : position < calls.length := Nat.lt_of_succ_lt_succ bound
            exact absurd (List.mem_flatMap.mpr ⟨calls[position], List.getElem_mem bound', member⟩)
              absent
      · have none := List.count_eq_zero.mpr here
        obtain ⟨position, found, unique⟩ := ih (by omega)
        refine ⟨position.succ, found, fun other member => ?_⟩
        obtain ⟨place, bound⟩ := other
        cases place with
        | zero => exact absurd member here
        | succ place =>
            have same := unique ⟨place, Nat.lt_of_succ_lt_succ bound⟩ member
            simp [← same]

/-- Paths between calls are paths between their positions. -/
private theorem feeds_positions {command : Command} {last : CommandCall}
    {root : Fin command.commandCalls.length}
    (onlyRoot : ∀ position, command.commandCalls.get position = last → position = root)
    {call : CommandCall}
    (path : Relation.ReflTransGen (Feeds command.commandCalls) call last) :
    ∀ position, command.commandCalls.get position = call →
      Relation.ReflTransGen command.Feeds position root := by
  induction path using Relation.ReflTransGen.head_induction_on with
  | refl =>
      intro position same
      rw [onlyRoot position same]
  | head step _ ih =>
      intro position same
      obtain ⟨present, index, writes, reads⟩ := step
      obtain ⟨next, found⟩ := List.mem_iff_get.mp present
      refine .head ⟨index, ?_, ?_⟩ (ih next found)
      · rw [same]
        exact writes
      · rw [found]
        exact reads

/-- The first call writes nowhere, and every other one to one pipe. -/
private theorem writesOne_of_countP {calls : List CommandCall} {root : CommandCall}
    (first : calls.head? = some root) (empty : root.writingPipes = [])
    (once : calls.countP (·.writingPipes.isEmpty) = 1)
    (short : ∀ call ∈ calls, call.writingPipes.length ≤ 1) (position : Fin calls.length)
    (later : position.val ≠ 0) : (calls.get position).writingPipes.length = 1 := by
  cases calls with
  | nil => simp at first
  | cons call others =>
      simp only [List.head?_cons, Option.some.injEq] at first
      simp only [List.countP_cons, first, empty, List.isEmpty_nil, if_true, Nat.add_eq_right,
        List.countP_eq_zero] at once
      obtain ⟨place, bound⟩ := position
      cases place with
      | zero => exact absurd rfl later
      | succ place =>
          have bound' : place < others.length := Nat.lt_of_succ_lt_succ bound
          have member : others[place] ∈ others := List.getElem_mem bound'
          have nonempty := once _ member
          have atMost := short _ (.tail _ member)
          show others[place].writingPipes.length = 1
          cases shape : others[place].writingPipes with
          | nil => simp [shape] at nonempty
          | cons pipe pipes =>
              rw [shape] at atMost
              simp only [List.length_cons] at atMost ⊢
              omega

/-- The entry of a link's pipe in the list of open pipes. -/
private theorem getElem_openPipes {links : List Link} {openPipes : List (Int × Int)}
    (shape : openPipes = links.map (·.ends))
    (indices : linkIndices links = List.range openPipes.length) {link : Link}
    (member : link ∈ links) :
    ∃ bound : link.index < openPipes.length, openPipes[link.index] = link.ends := by
  obtain ⟨position, bound, rfl⟩ := List.getElem_of_mem member
  have length : openPipes.length = links.length := by rw [shape, List.length_map]
  have index : links[position].index = position := by
    have entry : (linkIndices links)[position]? = some links[position].index := by
      simp [linkIndices, bound]
    rw [indices, List.getElem?_range (length ▸ bound)] at entry
    exact (Option.some.inj entry).symm
  refine ⟨by omega, ?_⟩
  simp only [index, shape, List.getElem_map]

/-- In a fresh shell the calls of an accepted command form a tree. -/
theorem tree_of_accepted_command {outcomes : FileOutcomes} {commandString : CString}
    {state state' : ParserState} {command : Command} (fresh : FreshShell state)
    (accepted : parseCommand outcomes commandString state = (some command, state')) :
    command.Tree := by
  obtain ⟨tree, read⟩ := parseCommand_some fresh.valid accepted
  have indices : linkIndices tree.links = List.range command.openPipes.length := by
    rw [read.openPipes, List.length_map, List.range_eq_range']
    exact read.wires.indices
  have ends : ∀ link ∈ tree.links, ∃ bound : link.index < command.openPipes.length,
      command.openPipes[link.index] = link.ends :=
    fun _ member => getElem_openPipes read.openPipes indices member
  have once : ∀ index < command.openPipes.length, (linkIndices tree.links).count index = 1 := by
    intro index bound
    rw [indices]
    exact List.count_eq_one_of_mem List.nodup_range (List.mem_range.mpr bound)
  have linked : ∀ call ∈ command.commandCalls,
      WritesTo tree.links call ∧ ReadsFrom tree.links call := by
    intro call member
    have ofTree := Pipeline.calls_linked commandString tree read.placed
      (fun impossible => absurd rfl impossible) (fun impossible => absurd rfl impossible) call
      (read.perm.subset member)
    simpa using ofTree
  have writers := Pipeline.countP_writingPipes commandString none none tree
  have rootEmpty := Pipeline.lastCall_writingPipes commandString none none tree
  have writesOne := writesOne_of_countP read.first rootEmpty
    ((read.perm.countP_eq _).trans writers.1)
    fun call member => writers.2 call (read.perm.subset member)
  constructor
  case written =>
    intro index bound
    have count : (command.commandCalls.flatMap (·.writingPipes)).count index = 1 := by
      rw [(read.perm.flatMap_right _).count_eq, Pipeline.count_writingPipes, once index bound]
      rfl
    obtain ⟨writer, writes, unique⟩ := exists_unique_position count
    refine ⟨writer, writes, ?_, unique⟩
    obtain ⟨link, member, rfl, stdout⟩ := (linked _ (List.get_mem _ writer)).1 index writes
    obtain ⟨_, entry⟩ := ends link member
    rw [entry, stdout]
    rfl
  case read =>
    intro index bound
    have count : (command.commandCalls.flatMap (·.readingPipes)).count index = 1 := by
      rw [(read.perm.flatMap_right _).count_eq, Pipeline.count_readingPipes, once index bound]
      rfl
    obtain ⟨reader, reads, unique⟩ := exists_unique_position count
    refine ⟨reader, reads, ?_, unique⟩
    obtain ⟨link, member, rfl, source⟩ := (linked _ (List.get_mem _ reader)).2 index reads
    obtain ⟨_, entry⟩ := ends link member
    rw [entry]
    exact source
  case different =>
    intro call member index writes reads
    have most := Pipeline.count_ends_le index commandString none none tree call
      (read.perm.subset member)
    have written := List.count_pos_iff.mpr writes
    have taken := List.count_pos_iff.mpr reads
    have atMost : (linkIndices tree.links).count index ≤ 1 := by
      rw [indices]
      exact List.nodup_iff_count_le_one.mp List.nodup_range index
    simp only [Option.toList_none, linkIndices_nil, List.count_nil, Nat.add_zero] at most
    omega
  case bounded =>
    intro call member index listed
    rcases List.mem_append.mp listed with reads | writes
    · obtain ⟨link, here, rfl, _⟩ := (linked call member).2 index reads
      exact (ends link here).1
    · obtain ⟨link, here, rfl, _⟩ := (linked call member).1 index writes
      exact (ends link here).1
  case writesOne => exact writesOne
  case rooted =>
    have first := read.first
    rw [List.head?_eq_getElem?] at first
    obtain ⟨bound, entry⟩ := List.getElem?_eq_some_iff.mp first
    refine ⟨⟨0, bound⟩, rfl, ?_, fun call => ?_⟩
    · rw [List.get_eq_getElem, entry]
      exact rootEmpty
    · have onlyRoot : ∀ position, command.commandCalls.get position =
          tree.lastCall commandString none none → position = ⟨0, bound⟩ := by
        intro position same
        by_contra different
        have one := writesOne position fun zero => different (Fin.ext zero)
        rw [same, rootEmpty] at one
        simp at one
      have path := Pipeline.feeds_lastCall commandString none none tree
        (fun _ member => read.perm.symm.subset member) (command.commandCalls.get call)
        (read.perm.subset (List.get_mem _ call))
      exact feeds_positions onlyRoot path call rfl

theorem tree_of_accepted_substitutions :
    ∃ command state', parseCommand .allSucceed "a <( b | c <( e ) ) | f > g".toList startedShell =
        (some command, state') ∧ command.Tree := by
  obtain ⟨command, state', accepted⟩ := exists_of_isSome (show (parseCommand .allSucceed
    "a <( b | c <( e ) ) | f > g".toList startedShell).1.isSome = true by decide +kernel)
  exact ⟨command, state', accepted, tree_of_accepted_command fresh_startedShell accepted⟩

end Jsh
