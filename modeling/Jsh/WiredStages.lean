import Jsh.CommandTree

/-!
# Stages of a tree

The stages behind the calls of a tree, each with the pipes that link it to its
neighbours, and what its redirections and substitutions contribute to the tree.
-/

set_option autoImplicit false

namespace Jsh

/-! ## Stages -/

/-- A stage with the links to its neighbours. -/
structure WiredStage where
  name : Word
  items : Items Labels.wired
  commandString : CString
  input : Option Link
  output : Option Link

/-- The links a stage reads from. -/
def WiredStage.sources (stage : WiredStage) : List Link :=
  stage.items.readLinks ++ stage.input.toList

def WiredStage.call (stage : WiredStage) : CommandCall :=
  stageCall stage.name stage.items stage.commandString stage.input stage.output

mutual

/-- The stages of a tree in the order of its calls. -/
def Pipeline.wiredStages (commandString : CString) (input output : Option Link) :
    Pipeline Labels.wired → List WiredStage
  | .mk name items next =>
      items.wiredStages ++ next.wiredStages output ++
        [{ name, items, commandString, input, output := next.link.or output }]

def Items.wiredStages : Items Labels.wired → List WiredStage
  | .nil => []
  | .word _ rest => rest.wiredStages
  | .redirection _ _ _ rest => rest.wiredStages
  | .substitution link body rest =>
      body.wiredStages (joinStrings body.words [' ']) none (some link) ++ rest.wiredStages

def Next.wiredStages (output : Option Link) : Next Labels.wired → List WiredStage
  | .last => []
  | .pipe link rest => rest.wiredStages (joinStrings rest.words [' ']) (some link) output

end

mutual

theorem Pipeline.map_call_wiredStages (commandString : CString) (input output : Option Link) :
    ∀ tree : Pipeline Labels.wired,
      (tree.wiredStages commandString input output).map WiredStage.call =
        tree.calls commandString input output
  | .mk name items next => by
      simp only [Pipeline.wiredStages, Pipeline.calls, List.map_append,
        Items.map_call_wiredStages items, Next.map_call_wiredStages output next, List.map_cons,
        List.map_nil, WiredStage.call]

theorem Items.map_call_wiredStages : ∀ items : Items Labels.wired,
    items.wiredStages.map WiredStage.call = items.calls
  | .nil => rfl
  | .word _ rest => Items.map_call_wiredStages rest
  | .redirection _ _ _ rest => Items.map_call_wiredStages rest
  | .substitution link body rest => by
      simp only [Items.wiredStages, Items.calls, List.map_append, Items.map_call_wiredStages rest,
        Pipeline.map_call_wiredStages _ none (some link) body]

theorem Next.map_call_wiredStages (output : Option Link) : ∀ next : Next Labels.wired,
    (next.wiredStages output).map WiredStage.call = next.calls output
  | .last => rfl
  | .pipe link rest => Pipeline.map_call_wiredStages _ (some link) output rest

end

/-! ## Redirections of a stage -/

/-- The file and the mode of the last redirection of a stream among the items of a stage. -/
def Items.lastRequest {labels : Labels} : Items labels → Stream → Option (CString × OpenMode)
  | .nil, _ => none
  | .word _ rest, stream => rest.lastRequest stream
  | .redirection symbol file _ rest, stream =>
      (rest.lastRequest stream).or
        (if symbol.stream = stream then some (file.text, symbol.mode) else none)
  | .substitution _ _ rest, stream => rest.lastRequest stream

section Requests

variable {labels : Labels}

mutual

theorem Pipeline.redirections_length : ∀ tree : Pipeline labels,
    tree.redirections.length = tree.opens.length
  | .mk _ items next => by
      simp only [Pipeline.redirections, Pipeline.opens, List.length_append,
        Items.redirections_length items, Next.redirections_length next]

theorem Items.redirections_length : ∀ items : Items labels,
    items.redirections.length = items.opens.length
  | .nil => rfl
  | .word _ rest => Items.redirections_length rest
  | .redirection _ _ _ rest => by
      simp only [Items.redirections, Items.opens, List.length_cons, Items.redirections_length rest]
  | .substitution _ body rest => by
      simp only [Items.redirections, Items.opens, List.length_append,
        Pipeline.redirections_length body, Items.redirections_length rest]

theorem Next.redirections_length : ∀ next : Next labels,
    next.redirections.length = next.opens.length
  | .last => rfl
  | .pipe _ rest => Pipeline.redirections_length rest

end

end Requests

/-- The labels of the redirections, each with the file it stands for. -/
def Pipeline.requests (tree : Pipeline Labels.wired) : List (Descriptor × CString × OpenMode) :=
  tree.redirections.zip tree.opens

def Items.requests (items : Items Labels.wired) : List (Descriptor × CString × OpenMode) :=
  items.redirections.zip items.opens

def Next.requests (next : Next Labels.wired) : List (Descriptor × CString × OpenMode) :=
  next.redirections.zip next.opens

theorem Pipeline.requests_mk (name : Word) (items : Items Labels.wired)
    (next : Next Labels.wired) :
    (Pipeline.mk name items next).requests = items.requests ++ next.requests :=
  List.zip_append items.redirections_length

theorem Items.requests_substitution (link : Link) (body : Pipeline Labels.wired)
    (rest : Items Labels.wired) :
    Items.requests (.substitution link body rest) =
      body.requests ++ rest.requests :=
  List.zip_append body.redirections_length

/-- The last redirection of a stream, with its label and its file. -/
theorem Items.lastRedirection_request : ∀ (items : Items Labels.wired) (stream : Stream),
    (items.lastRedirection stream = none ∧ items.lastRequest stream = none) ∨
      ∃ request ∈ items.requests, items.lastRedirection stream = some request.1 ∧
        items.lastRequest stream = some request.2
  | .nil, _ => .inl ⟨rfl, rfl⟩
  | .word _ rest, stream => Items.lastRedirection_request rest stream
  | .substitution link body rest, stream => by
      rw [Items.requests_substitution]
      refine (Items.lastRedirection_request rest stream).imp_right ?_
      rintro ⟨request, member, found⟩
      exact ⟨request, List.mem_append_right _ member, found⟩
  | .redirection symbol file label rest, stream => by
      simp only [Items.lastRedirection, Items.lastRequest]
      cases Items.lastRedirection_request rest stream with
      | inr later =>
          obtain ⟨request, member, label, same⟩ := later
          refine .inr ⟨request, .tail _ member, ?_⟩
          simp [label, same]
      | inl none =>
          rw [none.1, none.2, Option.none_or, Option.none_or]
          by_cases own : symbol.stream = stream
          · refine .inr ⟨(label, file.text, symbol.mode), .head _, ?_⟩
            simp [own]
          · simp [own]

theorem Items.lastRedirection_redirected {items : Items Labels.wired} {stream : Stream}
    {descriptor : Descriptor} (found : items.lastRedirection stream = some descriptor) :
    descriptor ∈ items.redirected := by
  cases stream <;> simp [Items.redirected, heldDescriptors, found]

/-! ## What a stage contributes -/

/-- The words, links, redirections and open files of a stage are among the given ones. -/
structure WiredStage.Within (words : List CString) (links : List Link)
    (requests : List (Descriptor × CString × OpenMode)) (files : List Descriptor)
    (stage : WiredStage) : Prop where
  words : stage.items.words ⊆ words
  input : ∀ link ∈ stage.input, link ∈ links
  output : ∀ link ∈ stage.output, link ∈ links
  readLinks : stage.items.readLinks ⊆ links
  requests : stage.items.requests ⊆ requests
  files : stage.items.redirected ⊆ files

theorem WiredStage.Within.mono {words words' : List CString} {links links' : List Link}
    {requests requests' : List (Descriptor × CString × OpenMode)}
    {files files' : List Descriptor} {stage : WiredStage}
    (within : stage.Within words links requests files) (longer : words ⊆ words')
    (more : links ⊆ links') (further : requests ⊆ requests') (wider : files ⊆ files') :
    stage.Within words' links' requests' files' where
  words := List.Subset.trans within.words longer
  input link member := more (within.input link member)
  output link member := more (within.output link member)
  readLinks := List.Subset.trans within.readLinks more
  requests := List.Subset.trans within.requests further
  files := List.Subset.trans within.files wider

mutual

/-- The stages of a tree are made of what the tree lists, and of the links at its ends. -/
theorem Pipeline.wiredStages_within (commandString : CString) (input output : Option Link) :
    ∀ tree : Pipeline Labels.wired, ∀ stage ∈ tree.wiredStages commandString input output,
      stage.Within tree.words (input.toList ++ tree.links ++ output.toList) tree.requests
        tree.files
  | .mk name items next, stage, member => by
      simp only [Pipeline.wiredStages, List.mem_append, List.mem_singleton] at member
      rw [Pipeline.requests_mk]
      simp only [Pipeline.words, Pipeline.links, Pipeline.files]
      rcases member with (nested | later) | rfl
      · have within := Items.wiredStages_within items stage nested
        exact within.mono (by grind) (by grind) (by simp) (by simp)
      · have within := Next.wiredStages_within output next stage later
        exact within.mono (by simp) (by grind) (by simp) (by simp)
      · constructor
        case words => grind
        case input =>
          intro link found
          have front : input = some link := found
          simp [front]
        case output =>
          intro link found
          cases next with
          | last =>
              have back : output = some link := found
              simp [back]
          | pipe first rest =>
              have same : first = link := by simpa [Next.link] using found
              simp [Next.links, same]
        case readLinks =>
          have own := items.readLinks_subset
          grind
        case requests => simp
        case files => simp

theorem Items.wiredStages_within : ∀ items : Items Labels.wired, ∀ stage ∈ items.wiredStages,
    stage.Within items.words items.links items.requests items.files
  | .nil, _, member => by simp [Items.wiredStages] at member
  | .word _ rest, stage, member => by
      have within := Items.wiredStages_within rest stage member
      exact within.mono (List.subset_cons_self _ _) (List.Subset.refl _) (List.Subset.refl _)
        (List.Subset.refl _)
  | .redirection _ _ _ rest, stage, member => by
      have within := Items.wiredStages_within rest stage member
      exact within.mono (by simp [Items.words]) (List.Subset.refl _) (List.subset_cons_self _ _)
        (List.Subset.refl _)
  | .substitution link body rest, stage, member => by
      simp only [Items.wiredStages, List.mem_append] at member
      rw [Items.requests_substitution]
      simp only [Items.words, Items.links, Items.files]
      cases member with
      | inl inner =>
          have within := Pipeline.wiredStages_within _ none (some link) body stage inner
          exact within.mono (by simp) (by simp) (by simp) (by simp)
      | inr later =>
          have within := Items.wiredStages_within rest stage later
          exact within.mono (by grind) (by simp) (by simp) (by simp)

theorem Next.wiredStages_within (output : Option Link) : ∀ next : Next Labels.wired,
    ∀ stage ∈ next.wiredStages output,
      stage.Within next.words (next.links ++ output.toList) next.requests next.files
  | .last, _, member => by simp [Next.wiredStages] at member
  | .pipe link rest, stage, member => by
      have within := Pipeline.wiredStages_within _ (some link) output rest stage member
      exact within.mono (List.subset_cons_self _ _) (by simp [Next.links]) (List.Subset.refl _)
        (List.Subset.refl _)

end

mutual

/-- A stage that writes to a pipe does not redirect its standard output. -/
theorem Pipeline.wiredStages_placed (commandString : CString) {input output : Option Link} :
    ∀ {stdin stdout : Bool} (tree : Pipeline Labels.wired), tree.Placed stdin stdout →
      (output ≠ none → stdout = false) →
      ∀ stage ∈ tree.wiredStages commandString input output,
        stage.output ≠ none → stage.items.lastRedirection .stdout = none
  | stdin, stdout, .mk name items .last, placed, back, stage, member => by
      simp only [Pipeline.Placed, Next.isLast, Bool.and_true] at placed
      simp only [Pipeline.wiredStages, Next.wiredStages, List.append_nil, List.mem_append,
        List.mem_singleton] at member
      rcases member with nested | rfl
      · exact Items.wiredStages_placed items placed.1 stage nested
      · intro linked
        rw [back linked] at placed
        exact Items.lastRedirection_stdout_of_placed items placed.1
  | stdin, stdout, .mk name items (.pipe link rest), placed, back, stage, member => by
      simp only [Pipeline.Placed, Next.Placed, Next.isLast, Bool.and_false] at placed
      simp only [Pipeline.wiredStages, Next.wiredStages, List.mem_append,
        List.mem_singleton] at member
      rcases member with (nested | later) | rfl
      · exact Items.wiredStages_placed items placed.1 stage nested
      · exact Pipeline.wiredStages_placed _ rest placed.2 back stage later
      · exact fun _ => Items.lastRedirection_stdout_of_placed items placed.1

theorem Items.wiredStages_placed : ∀ {stdin stdout : Bool} (items : Items Labels.wired),
    items.Placed stdin stdout → ∀ stage ∈ items.wiredStages,
      stage.output ≠ none → stage.items.lastRedirection .stdout = none
  | _, _, .nil, _, _, member => by simp [Items.wiredStages] at member
  | _, _, .word _ rest, placed, stage, member => by
      simp only [Items.Placed] at placed
      exact Items.wiredStages_placed rest placed stage member
  | _, _, .redirection _ _ _ rest, placed, stage, member => by
      simp only [Items.Placed] at placed
      exact Items.wiredStages_placed rest placed.2.2 stage member
  | _, _, .substitution link body rest, placed, stage, member => by
      simp only [Items.Placed] at placed
      simp only [Items.wiredStages, List.mem_append] at member
      cases member with
      | inl inner =>
          exact Pipeline.wiredStages_placed _ body placed.1 (fun _ => rfl) stage inner
      | inr later => exact Items.wiredStages_placed rest placed.2 stage later

end

/-! ## The last stage -/

mutual

/-- The last stage of a pipeline. -/
def Pipeline.lastStage (commandString : CString) (input output : Option Link) :
    Pipeline Labels.wired → WiredStage
  | .mk name items next => next.lastStage output { name, items, commandString, input, output }

/-- The same after a stage which `stage` is, were it the last one. -/
def Next.lastStage (output : Option Link) (stage : WiredStage) : Next Labels.wired → WiredStage
  | .last => stage
  | .pipe link rest => rest.lastStage (joinStrings rest.words [' ']) (some link) output

end

mutual

theorem Pipeline.call_lastStage (commandString : CString) (input output : Option Link) :
    ∀ tree : Pipeline Labels.wired,
      (tree.lastStage commandString input output).call =
        tree.lastCall commandString input output
  | .mk _ _ next => Next.call_lastStage output _ next

theorem Next.call_lastStage (output : Option Link) (stage : WiredStage) :
    ∀ next : Next Labels.wired,
      (next.lastStage output stage).call = next.lastCall output stage.call
  | .last => rfl
  | .pipe link rest => Pipeline.call_lastStage _ (some link) output rest

end

mutual

theorem Pipeline.lastStage_mem (commandString : CString) (input output : Option Link) :
    ∀ tree : Pipeline Labels.wired,
      tree.lastStage commandString input output ∈ tree.wiredStages commandString input output
  | .mk _ _ next => by
      cases Next.lastStage_mem output _ next with
      | inl own =>
          rw [Pipeline.lastStage, own.2, Pipeline.wiredStages, own.1, Option.none_or]
          exact List.mem_append_right _ (.head _)
      | inr later => exact List.mem_append_left _ (List.mem_append_right _ later)

theorem Next.lastStage_mem (output : Option Link) (stage : WiredStage) :
    ∀ next : Next Labels.wired,
      (next.link = none ∧ next.lastStage output stage = stage) ∨
        next.lastStage output stage ∈ next.wiredStages output
  | .last => .inl ⟨rfl, rfl⟩
  | .pipe link rest => .inr (Pipeline.lastStage_mem _ (some link) output rest)

end

end Jsh
