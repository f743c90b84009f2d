import Mathlib.Data.List.Basic
import Jsh.Grammar

/-! Laws of the wired trees: how many calls a tree has, where the call of its last
stage stands, and how linking one of its ends changes its calls. -/

set_option autoImplicit false

namespace Jsh

@[simp] theorem Pipeline.words_mk {labels : Labels} (name : Word) (items : Items labels)
    (next : Next labels) :
    (Pipeline.mk name items next).words = name.text :: items.words ++ next.words := by
  rw [Pipeline.words]

/-! ## Numbers of calls -/

mutual

@[simp] theorem Pipeline.calls_length (commandString : CString) (input output : Option Link) :
    ∀ tree : Pipeline Labels.wired,
      (tree.calls commandString input output).length = tree.size
  | .mk name items next => by
      simp only [Pipeline.calls, Pipeline.size, List.length_append, List.length_singleton,
        Items.calls_length items, Next.calls_length output next]

@[simp] theorem Items.calls_length : ∀ items : Items Labels.wired, items.calls.length = items.size
  | .nil => rfl
  | .word _ rest => by simp only [Items.calls, Items.size, Items.calls_length rest]
  | .redirection _ _ _ rest => by simp only [Items.calls, Items.size, Items.calls_length rest]
  | .substitution _ body rest => by
      simp only [Items.calls, Items.size, List.length_append, Pipeline.calls_length _ _ _ body,
        Items.calls_length rest]

@[simp] theorem Next.calls_length (output : Option Link) :
    ∀ next : Next Labels.wired, (next.calls output).length = next.size
  | .last => rfl
  | .pipe _ rest => by simp only [Next.calls, Next.size, Pipeline.calls_length _ _ _ rest]

end

theorem Pipeline.size_pos {labels : Labels} (tree : Pipeline labels) : 0 < tree.size := by
  cases tree with
  | mk name items next => simp [Pipeline.size]

mutual

theorem Pipeline.lastPosition_lt_size {labels : Labels} :
    ∀ tree : Pipeline labels, tree.lastPosition < tree.size
  | .mk name items next => by
      have := Next.lastPosition_le_size next
      simp only [Pipeline.lastPosition, Pipeline.size]
      omega

theorem Next.lastPosition_le_size {labels : Labels} :
    ∀ next : Next labels, next.lastPosition ≤ next.size
  | .last => Nat.le_refl _
  | .pipe _ rest => Nat.le_of_lt (Pipeline.lastPosition_lt_size rest)

end

/-! ## Trees without labels -/

section Erase

variable {labels : Labels}

mutual

@[simp] theorem Pipeline.opens_erase : ∀ tree : Pipeline labels, tree.erase.opens = tree.opens
  | .mk name items next => by
      simp only [Pipeline.erase, Pipeline.opens, Items.opens_erase items, Next.opens_erase next]

@[simp] theorem Items.opens_erase : ∀ items : Items labels, items.erase.opens = items.opens
  | .nil => rfl
  | .word _ rest => by simp only [Items.erase, Items.opens, Items.opens_erase rest]
  | .redirection _ _ _ rest => by simp only [Items.erase, Items.opens, Items.opens_erase rest]
  | .substitution _ body rest => by
      simp only [Items.erase, Items.opens, Pipeline.opens_erase body, Items.opens_erase rest]

@[simp] theorem Next.opens_erase : ∀ next : Next labels, next.erase.opens = next.opens
  | .last => rfl
  | .pipe _ rest => by simp only [Next.erase, Next.opens, Pipeline.opens_erase rest]

end

mutual

@[simp] theorem Pipeline.length_links_erase :
    ∀ tree : Pipeline labels, tree.erase.links.length = tree.links.length
  | .mk name items next => by
      simp only [Pipeline.erase, Pipeline.links, List.length_append, Items.length_links_erase items,
        Next.length_links_erase next]

@[simp] theorem Items.length_links_erase :
    ∀ items : Items labels, items.erase.links.length = items.links.length
  | .nil => rfl
  | .word _ rest => by simp only [Items.erase, Items.links, Items.length_links_erase rest]
  | .redirection _ _ _ rest => by
      simp only [Items.erase, Items.links, Items.length_links_erase rest]
  | .substitution _ body rest => by
      simp only [Items.erase, Items.links, List.length_append, List.length_cons,
        Pipeline.length_links_erase body, Items.length_links_erase rest]

@[simp] theorem Next.length_links_erase :
    ∀ next : Next labels, next.erase.links.length = next.links.length
  | .last => rfl
  | .pipe _ rest => by
      simp only [Next.erase, Next.links, List.length_append, List.length_singleton,
        Pipeline.length_links_erase rest]

end

mutual

@[simp] theorem Pipeline.size_erase : ∀ tree : Pipeline labels, tree.erase.size = tree.size
  | .mk name items next => by
      simp only [Pipeline.erase, Pipeline.size, Items.size_erase items, Next.size_erase next]

@[simp] theorem Items.size_erase : ∀ items : Items labels, items.erase.size = items.size
  | .nil => rfl
  | .word _ rest => by simp only [Items.erase, Items.size, Items.size_erase rest]
  | .redirection _ _ _ rest => by simp only [Items.erase, Items.size, Items.size_erase rest]
  | .substitution _ body rest => by
      simp only [Items.erase, Items.size, Pipeline.size_erase body, Items.size_erase rest]

@[simp] theorem Next.size_erase : ∀ next : Next labels, next.erase.size = next.size
  | .last => rfl
  | .pipe _ rest => by simp only [Next.erase, Next.size, Pipeline.size_erase rest]

end

@[simp] theorem Pipeline.lastPosition_erase :
    ∀ tree : Pipeline labels, tree.erase.lastPosition = tree.lastPosition
  | .mk name items .last => by
      simp only [Pipeline.erase, Next.erase, Pipeline.lastPosition, Next.lastPosition,
        Items.size_erase items]
  | .mk name items (.pipe _ rest) => by
      simp only [Pipeline.erase, Next.erase, Pipeline.lastPosition, Next.lastPosition,
        Items.size_erase items, Pipeline.lastPosition_erase rest]

mutual

@[simp] theorem Pipeline.pipes_erase : ∀ tree : Pipeline labels, tree.erase.pipes = tree.pipes
  | .mk name items next => by
      simp only [Pipeline.erase, Pipeline.pipes, Next.pipes_erase next]

@[simp] theorem Next.pipes_erase : ∀ next : Next labels, next.erase.pipes = next.pipes
  | .last => rfl
  | .pipe _ rest => by simp only [Next.erase, Next.pipes, Pipeline.pipes_erase rest]

end

end Erase

/-! ## The last stage -/

theorem Pipeline.calls_lastPosition (commandString : CString) (input output : Option Link) :
    ∀ tree : Pipeline Labels.wired,
      (tree.calls commandString input output)[tree.lastPosition]? =
        some (tree.lastCall commandString input output)
  | .mk name items .last => by
      simp only [Pipeline.calls, Pipeline.lastPosition, Pipeline.lastCall, List.append_assoc]
      rw [List.getElem?_append_right (by simp), Items.calls_length, Nat.add_sub_cancel_left]
      rfl
  | .mk name items (.pipe link rest) => by
      have inside := Pipeline.lastPosition_lt_size rest
      simp only [Pipeline.calls, Pipeline.lastPosition, Pipeline.lastCall, Next.calls,
        Next.lastPosition, Next.lastCall, List.append_assoc]
      rw [List.getElem?_append_right (by simp), Items.calls_length, Nat.add_sub_cancel_left,
        List.getElem?_append_left (by simpa using inside)]
      exact Pipeline.calls_lastPosition _ _ _ rest

/-! ## Linking -/

/-- Reading from a new pipe, as `link_pipelines` makes a call do. -/
def CommandCall.readFrom (call : CommandCall) (link : Link) : CommandCall :=
  { call with readingPipes := call.readingPipes ++ [link.index], stdin := link.readEnd }

/-- Writing to a new pipe, as a substitution makes the last call of its pipeline do. -/
def CommandCall.writeTo (call : CommandCall) (link : Link) : CommandCall :=
  { call with writingPipes := call.writingPipes ++ [link.index], stdout := link.writeEnd }

theorem Items.lastRedirection_stdin_of_placed {output : Bool} :
    ∀ items : Items Labels.wired, items.Placed false output → items.lastRedirection .stdin = none
  | .nil, _ => rfl
  | .word _ rest, placed => by
      simp only [Items.Placed] at placed
      exact Items.lastRedirection_stdin_of_placed rest placed
  | .redirection symbol _ _ rest, placed => by
      simp only [Items.Placed] at placed
      have other : symbol.stream ≠ .stdin := fun input => absurd (placed.1 input) (by decide)
      simp only [Items.lastRedirection, other, if_false,
        Items.lastRedirection_stdin_of_placed rest placed.2.2, Option.or_none]
  | .substitution _ _ rest, placed => by
      simp only [Items.Placed] at placed
      exact Items.lastRedirection_stdin_of_placed rest placed.2

theorem Items.lastRedirection_stdout_of_placed {input : Bool} :
    ∀ items : Items Labels.wired, items.Placed input false → items.lastRedirection .stdout = none
  | .nil, _ => rfl
  | .word _ rest, placed => by
      simp only [Items.Placed] at placed
      exact Items.lastRedirection_stdout_of_placed rest placed
  | .redirection symbol _ _ rest, placed => by
      simp only [Items.Placed] at placed
      have other : symbol.stream ≠ .stdout := fun output => absurd (placed.2.1 output) (by decide)
      simp only [Items.lastRedirection, other, if_false,
        Items.lastRedirection_stdout_of_placed rest placed.2.2, Option.or_none]
  | .substitution _ _ rest, placed => by
      simp only [Items.Placed] at placed
      exact Items.lastRedirection_stdout_of_placed rest placed.2

/-- A stage without redirection of its standard output is placed where none is allowed. -/
theorem Items.Placed.narrow {input output : Bool} :
    ∀ items : Items Labels.wired, items.Placed input output →
      items.lastRedirection .stdout = none → items.Placed input false
  | .nil, _, _ => trivial
  | .word _ rest, placed, absent => by
      simp only [Items.Placed] at placed ⊢
      exact Items.Placed.narrow rest placed absent
  | .redirection symbol _ _ rest, placed, absent => by
      simp only [Items.Placed] at placed ⊢
      simp only [Items.lastRedirection, Option.or_eq_none_iff, ite_eq_right_iff, reduceCtorEq,
        imp_false] at absent
      exact ⟨placed.1, fun output => absurd output absent.2,
        Items.Placed.narrow rest placed.2.2 absent.1⟩
  | .substitution _ _ rest, placed, absent => by
      simp only [Items.Placed] at placed ⊢
      exact ⟨placed.1, Items.Placed.narrow rest placed.2 absent⟩

theorem modify_append_right {α : Type} (update : α → α) (left right : List α) (index : Nat) :
    (left ++ right).modify (left.length + index) update = left ++ right.modify index update :=
  List.modifyTailIdx_add (List.modifyHead update) index left right

theorem modify_append_left {α : Type} (update : α → α) (right : List α) :
    ∀ {left : List α} {index : Nat}, index < left.length →
      (left ++ right).modify index update = left.modify index update ++ right
  | [], _, inside => absurd inside (Nat.not_lt_zero _)
  | _ :: _, 0, _ => rfl
  | first :: left, index + 1, inside => by
      simp [modify_append_left update right (Nat.lt_of_succ_lt_succ inside)]

/-- Linking the front of a pipeline makes its first stage, the one built last, read
from the link. -/
theorem Pipeline.calls_readFrom (commandString : CString) (output : Option Link) (link : Link)
    {stdout : Bool} {tree : Pipeline Labels.wired} (placed : tree.Placed false stdout) :
    (tree.calls commandString none output).modify (tree.size - 1) (·.readFrom link) =
      tree.calls commandString (some link) output := by
  cases tree with
  | mk name items next =>
      simp only [Pipeline.Placed] at placed
      have free := Items.lastRedirection_stdin_of_placed items placed.1
      have position : (Pipeline.mk name items next).size - 1 =
          (items.calls ++ next.calls output).length + 0 := by
        simp [Pipeline.size]
      rw [position, Pipeline.calls, Pipeline.calls, modify_append_right]
      simp [stageCall, CommandCall.readFrom, free]

/-- Linking the end of a pipeline makes its last stage write to the link. -/
theorem Pipeline.calls_writeTo (commandString : CString) (input : Option Link) (link : Link)
    {stdin : Bool} : ∀ tree : Pipeline Labels.wired, tree.Placed stdin false →
      (tree.calls commandString input none).modify tree.lastPosition (·.writeTo link) =
        tree.calls commandString input (some link)
  | .mk name items .last, placed => by
      simp only [Pipeline.Placed, Bool.false_and] at placed
      have free := Items.lastRedirection_stdout_of_placed items placed.1
      have position : (Pipeline.mk name items .last).lastPosition =
          (items.calls ++ Next.calls none .last).length + 0 := by
        simp [Pipeline.lastPosition, Next.lastPosition, Next.calls]
      rw [position, Pipeline.calls, Pipeline.calls, modify_append_right]
      simp [Next.calls, Next.link, stageCall, CommandCall.writeTo, free]
  | .mk name items (.pipe next rest), placed => by
      simp only [Pipeline.Placed, Next.Placed] at placed
      have inside := Pipeline.lastPosition_lt_size rest
      have linked := Pipeline.calls_writeTo (joinStrings rest.words [' ']) (some next) link rest
        placed.2
      simp only [Pipeline.calls, Pipeline.lastPosition, Next.calls, Next.lastPosition, Next.link,
        Option.some_or, List.append_assoc]
      rw [← Items.calls_length items, modify_append_right, modify_append_left, linked]
      simpa using inside

/-- A pipeline whose last call has kept the standard output redirects it nowhere. -/
theorem Pipeline.Placed.narrow (commandString : CString) (input : Option Link) {stdin : Bool} :
    ∀ tree : Pipeline Labels.wired, tree.Placed stdin true →
      (∀ descriptor ∈ tree.files, 2 < descriptor.number) →
      (tree.lastCall commandString input none).stdout = stdoutFileno → tree.Placed stdin false
  | .mk name items .last, placed, above, kept => by
      simp only [Pipeline.Placed, Next.isLast, Bool.and_true] at placed ⊢
      refine ⟨Items.Placed.narrow items placed.1 ?_, trivial⟩
      cases redirected : items.lastRedirection .stdout with
      | none => rfl
      | some descriptor =>
          have := above descriptor (by
            simp [Pipeline.files, Items.redirected, heldDescriptors, redirected])
          simp [Pipeline.lastCall, Next.lastCall, stageCall, redirected, stdoutFileno] at kept
          omega
  | .mk name items (.pipe link rest), placed, above, kept => by
      simp only [Pipeline.Placed, Next.Placed, Next.isLast, Bool.and_false] at placed ⊢
      simp only [Pipeline.lastCall, Next.lastCall] at kept
      refine ⟨placed.1, Pipeline.Placed.narrow _ _ rest placed.2 ?_ kept⟩
      intro descriptor member
      exact above descriptor (by simp [Pipeline.files, Next.files, member])

/-- Where no redirection of the standard output may stand, the last stage keeps it. -/
theorem Pipeline.lastCall_stdout (commandString : CString) (input : Option Link) {stdin : Bool} :
    ∀ tree : Pipeline Labels.wired, tree.Placed stdin false →
      (tree.lastCall commandString input none).stdout = stdoutFileno
  | .mk name items .last, placed => by
      simp only [Pipeline.Placed, Bool.false_and] at placed
      have free := Items.lastRedirection_stdout_of_placed items placed.1
      simp [Pipeline.lastCall, Next.lastCall, stageCall, free]
  | .mk name items (.pipe link rest), placed => by
      simp only [Pipeline.Placed, Next.Placed] at placed
      simp only [Pipeline.lastCall, Next.lastCall]
      exact Pipeline.lastCall_stdout _ _ rest placed.2

/-! ## Words -/

theorem Word.ne_symbol (word : Word) {symbol : CString} (member : symbol ∈ redirectionCaretSymbols) :
    word.text ≠ symbol := by
  rintro rfl
  have := word.ordinary
  simp only [containsString, List.any_eq_false, beq_iff_eq] at this
  exact this _ member rfl

theorem Redirection.text_mem (symbol : Redirection) : symbol.text ∈ redirectionCaretSymbols := by
  cases symbol <;> decide

theorem Redirection.text_ne (symbol : Redirection) :
    symbol.text ≠ commandSubstitutionStart ∧ symbol.text ≠ commandSubstitutionEnd ∧
      symbol.text ≠ pipeSymbol := by
  cases symbol <;> decide

theorem Redirection.text_injective {left right : Redirection} (same : left.text = right.text) :
    left = right := by
  cases left <;> cases right <;> first | rfl | exact absurd same (by decide)

/-- A token that is no bracket moves the scan for the closing one on by one. -/
theorem substitutionEnd_cons {token : CString} {rest : List CString} {startsFound : Nat}
    (noStart : token ≠ commandSubstitutionStart) (noEnd : token ≠ commandSubstitutionEnd) :
    substitutionEnd startsFound (token :: rest) =
      (substitutionEnd startsFound rest).map (· + 1) := by
  simp only [substitutionEnd, noStart, noEnd, if_false]

section Scan

variable {labels : Labels}

mutual

/-- The brackets of a tree are balanced: the scan passes over its words. -/
theorem Pipeline.substitutionEnd_words : ∀ (tree : Pipeline labels) (startsFound : Nat)
    (rest : List CString), substitutionEnd startsFound (tree.words ++ rest) =
      (substitutionEnd startsFound rest).map (· + tree.words.length)
  | .mk name items next, startsFound, rest => by
      rw [Pipeline.words, List.cons_append, List.cons_append, substitutionEnd_cons
        (name.ne_symbol (by decide)) (name.ne_symbol (by decide)), List.append_assoc,
        Items.substitutionEnd_words items, Next.substitutionEnd_words next, Option.map_map,
        Option.map_map]
      congr 1
      funext position
      simp only [Function.comp_apply, List.length_cons, List.length_append]
      omega

theorem Items.substitutionEnd_words : ∀ (items : Items labels) (startsFound : Nat)
    (rest : List CString), substitutionEnd startsFound (items.words ++ rest) =
      (substitutionEnd startsFound rest).map (· + items.words.length)
  | .nil, startsFound, rest => by
      cases found : substitutionEnd startsFound rest <;> simp [Items.words, found]
  | .word argument others, startsFound, rest => by
      rw [Items.words, List.cons_append, substitutionEnd_cons (argument.ne_symbol (by decide))
        (argument.ne_symbol (by decide)), Items.substitutionEnd_words others, Option.map_map]
      rfl
  | .redirection symbol file _ others, startsFound, rest => by
      obtain ⟨noStart, noEnd, _⟩ := symbol.text_ne
      rw [Items.words, List.cons_append, List.cons_append, substitutionEnd_cons noStart noEnd,
        substitutionEnd_cons (file.ne_symbol (by decide)) (file.ne_symbol (by decide)),
        Items.substitutionEnd_words others, Option.map_map, Option.map_map]
      rfl
  | .substitution _ body others, startsFound, rest => by
      have different : commandSubstitutionEnd ≠ commandSubstitutionStart := by decide
      have opening : ∀ tokens, substitutionEnd startsFound (commandSubstitutionStart :: tokens) =
          (substitutionEnd (startsFound + 1) tokens).map (· + 1) := by
        intro tokens
        simp only [substitutionEnd, Ne.symm different, if_true, if_false]
      have closing : ∀ tokens, substitutionEnd (startsFound + 1) (commandSubstitutionEnd :: tokens) =
          (substitutionEnd startsFound tokens).map (· + 1) := by
        intro tokens
        simp [substitutionEnd, different]
      rw [Items.words, List.cons_append, List.cons_append, opening, List.append_assoc,
        Pipeline.substitutionEnd_words body, List.cons_append, closing,
        Items.substitutionEnd_words others, Option.map_map, Option.map_map, Option.map_map]
      congr 1
      funext position
      simp only [Function.comp_apply, List.length_cons, List.length_append]
      omega

theorem Next.substitutionEnd_words : ∀ (next : Next labels) (startsFound : Nat)
    (rest : List CString), substitutionEnd startsFound (next.words ++ rest) =
      (substitutionEnd startsFound rest).map (· + next.words.length)
  | .last, startsFound, rest => by
      cases found : substitutionEnd startsFound rest <;> simp [Next.words, found]
  | .pipe _ others, startsFound, rest => by
      have noStart : pipeSymbol ≠ commandSubstitutionStart := by decide
      have noEnd : pipeSymbol ≠ commandSubstitutionEnd := by decide
      rw [Next.words, List.cons_append, substitutionEnd_cons noStart noEnd,
        Pipeline.substitutionEnd_words others, Option.map_map]
      rfl

end

end Scan

/-- The closing bracket of a substitution is the one after its pipeline. -/
theorem Pipeline.substitutionEnd_body {labels : Labels} (tree : Pipeline labels)
    (rest : List CString) :
    substitutionEnd 0 (tree.words ++ commandSubstitutionEnd :: rest) = some tree.words.length := by
  rw [tree.substitutionEnd_words, show substitutionEnd 0 (commandSubstitutionEnd :: rest) = some 0
    by simp [substitutionEnd, show commandSubstitutionEnd ≠ commandSubstitutionStart by decide]]
  simp

section Widen

variable {labels : Labels}

theorem Items.Placed.widen {input output : Bool} :
    ∀ items : Items labels, items.Placed input output → items.Placed input true
  | .nil, _ => trivial
  | .word _ rest, placed => by
      simp only [Items.Placed] at placed ⊢
      exact Items.Placed.widen rest placed
  | .redirection _ _ _ rest, placed => by
      simp only [Items.Placed] at placed ⊢
      exact ⟨placed.1, fun _ => trivial, Items.Placed.widen rest placed.2.2⟩
  | .substitution _ _ rest, placed => by
      simp only [Items.Placed] at placed ⊢
      exact ⟨placed.1, Items.Placed.widen rest placed.2⟩

/-- A pipeline placed where no output may be redirected is placed where it may. -/
theorem Pipeline.Placed.widen : ∀ {input : Bool} (tree : Pipeline labels),
    tree.Placed input false → tree.Placed input true
  | _, .mk _ items .last, placed => by
      simp only [Pipeline.Placed] at placed ⊢
      exact ⟨Items.Placed.widen items placed.1, trivial⟩
  | _, .mk _ items (.pipe _ rest), placed => by
      simp only [Pipeline.Placed, Next.Placed, Next.isLast, Bool.and_false] at placed ⊢
      exact ⟨placed.1, Pipeline.Placed.widen rest placed.2⟩

end Widen

/-! ## Unambiguity -/

theorem Word.ext_text {left right : Word} (same : left.text = right.text) : left = right := by
  cases left
  cases right
  cases same
  rfl

/-- What may follow a pipeline. -/
def Closes (rest : List CString) : Prop :=
  rest = [] ∨ ∃ tail, rest = commandSubstitutionEnd :: tail

/-- What may follow the items of a stage. -/
def Stops (rest : List CString) : Prop := Closes rest ∨ ∃ tail, rest = pipeSymbol :: tail

theorem Stops.head {token : CString} {rest : List CString} (stops : Stops (token :: rest)) :
    token = commandSubstitutionEnd ∨ token = pipeSymbol := by
  rcases stops with (impossible | ⟨tail, same⟩) | ⟨tail, same⟩
  · cases impossible
  · exact .inl (List.cons.inj same).1
  · exact .inr (List.cons.inj same).1

theorem Closes.head {token : CString} {rest : List CString} (closes : Closes (token :: rest)) :
    token = commandSubstitutionEnd := by
  rcases closes with impossible | ⟨tail, same⟩
  · cases impossible
  · exact (List.cons.inj same).1

theorem Next.stops {labels : Labels} (next : Next labels) {rest : List CString}
    (closes : Closes rest) : Stops (next.words ++ rest) := by
  cases next with
  | last => exact .inl closes
  | pipe link others => exact .inr ⟨others.words ++ rest, rfl⟩

/-- No item starts with a token that ends its stage. -/
theorem Items.eq_nil_of_stops {labels : Labels} {items : Items labels} {rest : List CString}
    (stops : Stops (items.words ++ rest)) : items = .nil := by
  cases items with
  | nil => rfl
  | word argument others =>
      rw [Items.words, List.cons_append] at stops
      rcases stops.head with same | same
      · exact absurd same (argument.ne_symbol (by decide))
      · exact absurd same (argument.ne_symbol (by decide))
  | redirection symbol file label others =>
      rw [Items.words, List.cons_append] at stops
      rcases stops.head with same | same <;> cases symbol <;> exact absurd same (by decide)
  | substitution link body others =>
      rw [Items.words, List.cons_append] at stops
      rcases stops.head with same | same <;> exact absurd same (by decide)

mutual

/-- The words of a pipeline determine it, whatever follows it. -/
theorem Pipeline.words_injective : ∀ (left right : Syntax) {rest rest' : List CString},
    Closes rest → Closes rest' → left.words ++ rest = right.words ++ rest' →
      left = right ∧ rest = rest'
  | .mk name items next, .mk name' items' next', rest, rest', closes, closes', same => by
      simp only [Pipeline.words, List.cons_append, List.append_assoc, List.cons.injEq] at same
      obtain ⟨names, same⟩ := same
      obtain ⟨rfl, after⟩ := Items.words_injective items items' (next.stops closes)
        (next'.stops closes') same
      obtain ⟨rfl, rfl⟩ := Next.words_injective next next' closes closes' after
      obtain rfl := Word.ext_text names
      exact ⟨rfl, rfl⟩

theorem Items.words_injective : ∀ (left right : Items Labels.plain) {rest rest' : List CString},
    Stops rest → Stops rest' → left.words ++ rest = right.words ++ rest' →
      left = right ∧ rest = rest'
  | .nil, right, rest, rest', stops, _, same => by
      rw [Items.words, List.nil_append] at same
      have none : right = .nil := Items.eq_nil_of_stops (same ▸ stops)
      subst none
      exact ⟨rfl, same⟩
  | left, .nil, rest, rest', _, stops', same => by
      simp only [Items.words, List.nil_append] at same
      have none : left = .nil := Items.eq_nil_of_stops (same ▸ stops')
      subst none
      exact ⟨rfl, same⟩
  | .word argument others, .word argument' others', rest, rest', stops, stops', same => by
      simp only [Items.words, List.cons_append, List.cons.injEq] at same
      obtain ⟨rfl, rfl⟩ := Items.words_injective others others' stops stops' same.2
      obtain rfl := Word.ext_text same.1
      exact ⟨rfl, rfl⟩
  | .word argument others, .redirection symbol file _ others', rest, rest', _, _, same => by
      simp only [Items.words, List.cons_append, List.cons.injEq] at same
      exact absurd same.1 (argument.ne_symbol symbol.text_mem)
  | .word argument others, .substitution _ body others', rest, rest', _, _, same => by
      simp only [Items.words, List.cons_append, List.cons.injEq] at same
      exact absurd same.1 (argument.ne_symbol (by decide))
  | .redirection symbol file _ others, .word argument others', rest, rest', _, _, same => by
      simp only [Items.words, List.cons_append, List.cons.injEq] at same
      exact absurd same.1.symm (argument.ne_symbol symbol.text_mem)
  | .redirection symbol file _ others, .redirection symbol' file' _ others', rest, rest', stops,
      stops', same => by
      simp only [Items.words, List.cons_append, List.cons.injEq] at same
      obtain ⟨rfl, rfl⟩ := Items.words_injective others others' stops stops' same.2.2
      obtain rfl := Redirection.text_injective same.1
      obtain rfl := Word.ext_text same.2.1
      exact ⟨rfl, rfl⟩
  | .redirection symbol file _ others, .substitution _ body others', rest, rest', _, _, same => by
      simp only [Items.words, List.cons_append, List.cons.injEq] at same
      cases symbol <;> exact absurd same.1 (by decide)
  | .substitution _ body others, .word argument others', rest, rest', _, _, same => by
      simp only [Items.words, List.cons_append, List.cons.injEq] at same
      exact absurd same.1.symm (argument.ne_symbol (by decide))
  | .substitution _ body others, .redirection symbol file _ others', rest, rest', _, _, same => by
      simp only [Items.words, List.cons_append, List.cons.injEq] at same
      cases symbol <;> exact absurd same.1.symm (by decide)
  | .substitution _ body others, .substitution _ body' others', rest, rest', stops, stops',
      same => by
      simp only [Items.words, List.cons_append, List.append_assoc, List.cons.injEq] at same
      obtain ⟨rfl, after⟩ := Pipeline.words_injective body body' (.inr ⟨_, rfl⟩) (.inr ⟨_, rfl⟩)
        same.2
      obtain ⟨rfl, rfl⟩ := Items.words_injective others others' stops stops'
        (List.cons.inj after).2
      exact ⟨rfl, rfl⟩

theorem Next.words_injective : ∀ (left right : Next Labels.plain) {rest rest' : List CString},
    Closes rest → Closes rest' → left.words ++ rest = right.words ++ rest' →
      left = right ∧ rest = rest'
  | .last, .last, rest, rest', _, _, same => ⟨rfl, same⟩
  | .last, .pipe _ others, rest, rest', closes, _, same => by
      rw [show rest = pipeSymbol :: (others.words ++ rest') from same] at closes
      exact absurd closes.head (by decide)
  | .pipe _ others, .last, rest, rest', _, closes', same => by
      rw [show rest' = pipeSymbol :: (others.words ++ rest) from same.symm] at closes'
      exact absurd closes'.head (by decide)
  | .pipe _ others, .pipe _ others', rest, rest', closes, closes', same => by
      simp only [Next.words, List.cons_append, List.cons.injEq] at same
      obtain ⟨rfl, rfl⟩ := Pipeline.words_injective others others' closes closes' same.2
      exact ⟨rfl, rfl⟩

end

/-- A list of words has at most one syntax tree. -/
theorem Syntax.unambiguous {left right : Syntax} (same : left.words = right.words) :
    left = right :=
  (Pipeline.words_injective left right (.inl rfl) (.inl rfl) (by rw [same])).1

end Jsh
