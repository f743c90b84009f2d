import Jsh.Launching
import Jsh.Streams

/-!
# Data flow of a command

What a command string says about data: the output of a pipeline is that of its last
stage, which is given the output of the stage before it and, as files, the outputs of its
substitutions. The processes launched for the string, each of which reads and writes its
own descriptors, have no other outputs than these.
-/

set_option autoImplicit false

namespace Jsh

open Library

/-! ## Programs -/

/-- An argument of a program: a word, or a file by what it contains. -/
inductive Argument (α : Type) where
  | word (text : CString)
  | source (content : α)

/-- What programs write to their standard output, given their name, their arguments and
what they read from the standard input; what files contain; and what the standard input of
the shell delivers. -/
structure Programs (α : Type) where
  run : CString → List (Argument α) → α → α
  content : CString → α
  input : α

/-! ## The meaning of a tree -/

section Meaning

variable {labels : Labels} {α : Type} (programs : Programs α)

/-- The standard input of a stage: the file it is redirected to, else what it is given. -/
def Items.input (items : Items labels) (given : α) : α :=
  match items.lastRequest .stdin with
  | some request => programs.content request.1
  | none => given

mutual

/-- The output of a pipeline whose first stage is given its standard input. -/
def Pipeline.output (given : α) : Pipeline labels → α
  | .mk name items next =>
      next.output (programs.run name.text items.sources (items.input programs given))

/-- The arguments of a stage. -/
def Items.sources : Items labels → List (Argument α)
  | .nil => []
  | .word argument rest => .word argument.text :: rest.sources
  | .redirection _ _ _ rest => rest.sources
  | .substitution _ body rest => .source (body.output programs.input) :: rest.sources

/-- The output of the stages that follow one with the output `written`. -/
def Next.output (written : α) : Next labels → α
  | .last => written
  | .pipe _ rest => rest.output written

end

theorem Items.lastRequest_erase (items : Items labels) (stream : Stream) :
    items.erase.lastRequest stream = items.lastRequest stream := by
  induction items using Items.rec (motive_1 := fun _ => True) (motive_3 := fun _ => True) with
  | nil => rfl
  | word _ _ ih => exact ih
  | redirection _ _ _ _ ih => simp only [Items.erase, Items.lastRequest, ih]
  | substitution _ _ _ _ ih => exact ih
  | _ => trivial

mutual

/-- The labels of a tree do not matter. -/
theorem Pipeline.output_erase (given : α) : ∀ tree : Pipeline labels,
    tree.erase.output programs given = tree.output programs given
  | .mk name items next => by
      have same := items.lastRequest_erase .stdin
      rw [Pipeline.erase, Pipeline.output, Pipeline.output, Next.output_erase _ next,
        Items.sources_erase items, Items.input, Items.input, same]

theorem Items.sources_erase : ∀ items : Items labels,
    items.erase.sources programs = items.sources programs
  | .nil => rfl
  | .word argument rest => by
      rw [Items.erase, Items.sources, Items.sources, Items.sources_erase rest]
  | .redirection _ _ _ rest => by
      rw [Items.erase, Items.sources, Items.sources, Items.sources_erase rest]
  | .substitution _ body rest => by
      rw [Items.erase, Items.sources, Items.sources, Items.sources_erase rest,
        Pipeline.output_erase _ body]

theorem Next.output_erase (written : α) : ∀ next : Next labels,
    next.erase.output programs written = next.output programs written
  | .last => rfl
  | .pipe _ rest => Pipeline.output_erase written rest

end

end Meaning

/-! ## What the pipes carry -/

section Flows

variable {α : Type} (programs : Programs α)

mutual

/-- What the pipes of a tree carry, by their serial numbers. -/
def Pipeline.flows (given : α) : Pipeline Labels.wired → List (Nat × α)
  | .mk name items next =>
      items.flows ++
        next.flows (programs.run name.text (items.sources programs) (items.input programs given))

def Items.flows : Items Labels.wired → List (Nat × α)
  | .nil => []
  | .word _ rest => rest.flows
  | .redirection _ _ _ rest => rest.flows
  | .substitution link body rest =>
      (link.serial, body.output programs programs.input) :: body.flows programs.input ++ rest.flows

def Next.flows (written : α) : Next Labels.wired → List (Nat × α)
  | .last => []
  | .pipe link rest => (link.serial, written) :: rest.flows written

end

mutual

theorem Pipeline.flows_serials (given : α) : ∀ tree : Pipeline Labels.wired,
    ((tree.flows programs given).map (·.1)).Perm (tree.links.map (·.serial))
  | .mk name items next => by
      simp only [Pipeline.flows, Pipeline.links, List.map_append]
      exact (Items.flows_serials items).append (Next.flows_serials _ next)

theorem Items.flows_serials : ∀ items : Items Labels.wired,
    ((items.flows programs).map (·.1)).Perm (items.links.map (·.serial))
  | .nil => .nil
  | .word _ rest => Items.flows_serials rest
  | .redirection _ _ _ rest => Items.flows_serials rest
  | .substitution link body rest => by
      simp only [Items.flows, Items.links, List.cons_append, List.map_cons, List.map_append]
      exact .cons _ ((Pipeline.flows_serials _ body).append (Items.flows_serials rest))

theorem Next.flows_serials (written : α) : ∀ next : Next Labels.wired,
    ((next.flows programs written).map (·.1)).Perm (next.links.map (·.serial))
  | .last => .nil
  | .pipe link rest => by
      simp only [Next.flows, Next.links, List.map_cons, List.map_append, List.map_nil]
      exact ((Pipeline.flows_serials written rest).cons _).trans
        (List.perm_append_singleton _ _).symm

end

end Flows

/-- What pipes have carried, by their serial numbers, is as listed. -/
def Follows {α : Type} (history : Nat → α) (flows : List (Nat × α)) : Prop :=
  ∀ flow ∈ flows, history flow.1 = flow.2

theorem follows_append {α : Type} {history : Nat → α} {first second : List (Nat × α)} :
    Follows history (first ++ second) ↔ Follows history first ∧ Follows history second :=
  List.forall_mem_append

theorem follows_cons {α : Type} {history : Nat → α} {serial : Nat} {data : α}
    {flows : List (Nat × α)} :
    Follows history ((serial, data) :: flows) ↔
      history serial = data ∧ Follows history flows :=
  List.forall_mem_cons

theorem exists_follows {α : Type} (default : α) {flows : List (Nat × α)}
    (distinct : (flows.map (·.1)).Nodup) : ∃ history, Follows history flows := by
  induction flows with
  | nil => exact ⟨fun _ => default, List.forall_mem_nil _⟩
  | cons flow flows ih =>
      obtain ⟨absent, distinct⟩ := List.nodup_cons.mp distinct
      obtain ⟨history, follows⟩ := ih distinct
      refine ⟨Function.update history flow.1 flow.2, follows_cons.mpr ⟨?_, fun other member => ?_⟩⟩
      · exact Function.update_self _ _ _
      · have apart : other.1 ≠ flow.1 := fun same =>
          absent (List.mem_map.mpr ⟨other, member, same⟩)
        rw [Function.update_of_ne apart, follows other member]

/-! ## The equations of the stages -/

section Stages

variable {α : Type} (programs : Programs α) (history : Nat → α)

/-- The arguments of a stage, with the substitutions read from their pipes. -/
def Items.received : Items Labels.wired → List (Argument α)
  | .nil => []
  | .word argument rest => .word argument.text :: rest.received
  | .redirection _ _ _ rest => rest.received
  | .substitution link _ rest => .source (history link.serial) :: rest.received

/-- What a stage is given: the content of the pipe from the stage before it, if there is
one. -/
def WiredStage.given (stage : WiredStage) : α :=
  match stage.input with
  | some link => history link.serial
  | none => programs.input

/-- The output of a stage that reads from its pipes. -/
def WiredStage.written (stage : WiredStage) : α :=
  programs.run stage.name.text (stage.items.received history)
    (stage.items.input programs (stage.given programs history))

/-- Each pipe carries the output of the stage that writes to it. -/
def Solves (stages : List WiredStage) : Prop :=
  ∀ stage ∈ stages, ∀ link ∈ stage.output, history link.serial = stage.written programs history

end Stages

section Solutions

variable {α : Type} {programs : Programs α} {history : Nat → α}

theorem solves_append {first second : List WiredStage} :
    Solves programs history (first ++ second) ↔
      Solves programs history first ∧ Solves programs history second :=
  List.forall_mem_append

theorem solves_singleton {stage : WiredStage} :
    Solves programs history [stage] ↔
      ∀ link ∈ stage.output, history link.serial = stage.written programs history :=
  List.forall_mem_singleton

/-- When the pipes of its substitutions carry their outputs, a stage has the arguments its
items say. -/
theorem Items.received_eq : ∀ items : Items Labels.wired,
    Follows history (items.flows programs) → items.received history = items.sources programs
  | .nil, _ => rfl
  | .word argument rest, follows => by
      rw [Items.received, Items.sources, Items.received_eq rest follows]
  | .redirection _ _ _ rest, follows => by
      rw [Items.received, Items.sources, Items.received_eq rest follows]
  | .substitution link body rest, follows => by
      rw [Items.flows, List.cons_append, follows_cons, follows_append] at follows
      obtain ⟨own, _, others⟩ := follows
      rw [Items.received, Items.sources, own, Items.received_eq rest others]

/-- The output of a stage, when the pipes of its substitutions carry theirs. -/
theorem WiredStage.written_eq {stage : WiredStage} {given : α}
    (front : stage.input.elim programs.input (fun link => history link.serial) = given)
    (nested : Follows history (stage.items.flows programs)) :
    stage.written programs history =
      programs.run stage.name.text (stage.items.sources programs)
        (stage.items.input programs given) := by
  have own : stage.given programs history = given := by
    rw [← front, WiredStage.given]
    cases stage.input <;> rfl
  rw [WiredStage.written, own, Items.received_eq stage.items nested]

mutual

/-- The equations of the stages of a tree say what each of its pipes carries, and that the
pipe at its end carries its output. -/
theorem Pipeline.solves_iff (commandString : CString) {input output : Option Link} {given : α}
    (front : input.elim programs.input (fun link => history link.serial) = given) :
    ∀ tree : Pipeline Labels.wired,
      Solves programs history (tree.wiredStages commandString input output) ↔
        Follows history (tree.flows programs given) ∧
          ∀ link ∈ output, history link.serial = tree.output programs given
  | .mk name items next => by
      let stage : WiredStage :=
        { name, items, commandString, input, output := next.link.or output }
      let written := programs.run name.text (items.sources programs) (items.input programs given)
      have own : Follows history (items.flows programs) →
          stage.written programs history = written :=
        @WiredStage.written_eq α programs history stage given front
      rw [Pipeline.wiredStages, solves_append, solves_append, solves_singleton,
        Items.solves_iff items, Pipeline.flows, follows_append, and_assoc, and_assoc]
      refine and_congr_right fun nested => ?_
      change _ ∧ (∀ link ∈ next.link.or output,
        history link.serial = stage.written programs history) ↔ _
      rw [own nested]
      cases next with
      | last =>
          refine and_congr_left fun _ => ?_
          exact ⟨fun _ => List.forall_mem_nil _, fun _ => List.forall_mem_nil _⟩
      | pipe first rest =>
          have following := @Pipeline.solves_iff (joinStrings rest.words [' ']) (some first) output
            _ rfl rest
          rw [Next.wiredStages, following, Next.flows, follows_cons]
          simp only [Next.link, Option.some_or, Option.mem_def, Option.some.injEq, forall_eq',
            Option.elim_some]
          constructor
          · rintro ⟨⟨follows, last⟩, carried⟩
            rw [carried] at follows last
            exact ⟨⟨carried, follows⟩, last⟩
          · rintro ⟨⟨carried, follows⟩, last⟩
            rw [carried]
            exact ⟨⟨follows, last⟩, rfl⟩

theorem Items.solves_iff : ∀ items : Items Labels.wired,
    Solves programs history items.wiredStages ↔ Follows history (items.flows programs)
  | .nil => by simp [Items.wiredStages, Items.flows, Solves, Follows]
  | .word _ rest => Items.solves_iff rest
  | .redirection _ _ _ rest => Items.solves_iff rest
  | .substitution link body rest => by
      rw [Items.wiredStages, solves_append, Pipeline.solves_iff _ rfl body, Items.solves_iff rest,
        Items.flows, List.cons_append, follows_cons, follows_append]
      simp only [Option.mem_def, Option.some.injEq, forall_eq', Option.elim_none]
      tauto

end

/-- The last stage of a pipeline writes the output of the pipeline. -/
theorem Pipeline.written_lastStage (commandString : CString) {input output : Option Link}
    {given : α} (front : input.elim programs.input (fun link => history link.serial) = given) :
    ∀ tree : Pipeline Labels.wired, Follows history (tree.flows programs given) →
      (tree.lastStage commandString input output).written programs history =
        tree.output programs given
  | .mk name items .last, follows => by
      rw [Pipeline.flows, follows_append] at follows
      exact @WiredStage.written_eq α programs history
        { name, items, commandString, input, output } given front follows.1
  | .mk name items (.pipe link rest), follows => by
      rw [Pipeline.flows, follows_append, Next.flows, follows_cons] at follows
      obtain ⟨_, carried, later⟩ := follows
      exact @Pipeline.written_lastStage (joinStrings rest.words [' ']) (some link) output _ carried
        rest later

end Solutions

/-! ## The equations of the processes -/

section Processes

variable {α : Type} (programs : Programs α) (opens : List (CString × OpenMode))
  (history : Nat → α)

/-- What is read from an open file: what a pipe has carried, the content of a file, or else
what the shell's own standard input delivers. -/
def Programs.read : Option OpenFile → α
  | some (.pipeRead serial) => history serial
  | some (.file serial) =>
      match opens[serial]? with
      | some request => programs.content request.1
      | none => programs.input
  | _ => programs.input

/-- An argument of a child: the path of one of its descriptors stands for the file the
descriptor refers to. -/
def Child.argument (child : Child) (word : CString) : Argument α :=
  match child.descriptors.find? fun descriptor => devFile descriptor.number == word with
  | some descriptor => .source (programs.read opens history (some descriptor.file))
  | none => .word word

/-- The output of a child that reads its own descriptors. -/
def Child.output (child : Child) : α :=
  programs.run child.call.name (child.call.argv.tail.map (child.argument programs opens history))
    (programs.read opens history (fileOf child.descriptors stdinFileno))

/-- Each pipe carries the output of the process whose standard output it is. -/
def Network (children : List Child) : Prop :=
  ∀ child ∈ children, ∀ serial,
    fileOf child.descriptors stdoutFileno = some (.pipeWrite serial) →
      history serial = child.output programs opens history

end Processes

theorem decimal_injective : Function.Injective decimal := by
  have digits : ∀ first second, Nat.toDigits 10 first = Nat.toDigits 10 second →
      first = second := by
    intro first second same
    have value := congrArg (Nat.ofDigitChars 10 · 0) same
    simpa [Nat.ofDigitChars_toDigits] using value
  have signed : ∀ value rest, Nat.toDigits 10 value ≠ '-' :: rest := by
    intro value rest same
    have member : '-' ∈ Nat.toDigits 10 value := by simp [same]
    have digit := Nat.isDigit_of_mem_toDigits (by decide) (by decide) member
    cases digit
  intro first second same
  cases first with
  | ofNat first =>
      cases second with
      | ofNat second => exact congrArg Int.ofNat (digits first second same)
      | negSucc second => exact absurd same (signed first _)
  | negSucc first =>
      cases second with
      | ofNat second => exact absurd same.symm (signed second _)
      | negSucc second =>
          have value := digits _ _ (List.cons.inj same).2
          exact congrArg Int.negSucc (Nat.succ.inj value)

theorem devFile_injective : Function.Injective devFile :=
  (List.append_right_injective _).comp decimal_injective

section Runs

variable {α : Type} {programs : Programs α} {opens : List (CString × OpenMode)}
  {history : Nat → α} {child : Child}

/-- A word that is no path of a descriptor stands for itself. -/
theorem Child.argument_word {word : CString} (literal : ∀ number, word ≠ devFile number) :
    child.argument programs opens history word = .word word := by
  have absent : (child.descriptors.find? fun descriptor => devFile descriptor.number == word) =
      none := by
    rw [List.find?_eq_none]
    intro descriptor _ same
    exact literal descriptor.number (eq_of_beq same).symm
  rw [Child.argument, absent]

theorem Child.argument_devFile {number : Int} {file : OpenFile}
    (opened : fileOf child.descriptors number = some file) :
    child.argument programs opens history (devFile number) =
      .source (programs.read opens history (some file)) := by
  obtain ⟨descriptor, found, rfl⟩ := Option.map_eq_some_iff.mp opened
  have same : (fun descriptor : Descriptor => devFile descriptor.number == devFile number) =
      fun descriptor => descriptor.number == number := by
    funext descriptor
    rw [Bool.eq_iff_iff, beq_iff_eq, beq_iff_eq, devFile_injective.eq_iff]
  rw [Child.argument, same, found]

/-- The arguments of a child that has the pipes of the substitutions. -/
theorem Items.map_argument : ∀ items : Items Labels.wired,
    (∀ word ∈ items.words, ∀ number, word ≠ devFile number) →
    (∀ link ∈ items.readLinks,
      fileOf child.descriptors link.readEnd = some (.pipeRead link.serial)) →
    items.arguments.map (child.argument programs opens history) = items.received history
  | .nil, _, _ => rfl
  | .word argument rest, literal, piped => by
      rw [Items.words, List.forall_mem_cons] at literal
      rw [Items.arguments, List.map_cons, Child.argument_word literal.1,
        Items.map_argument rest literal.2 piped, Items.received]
  | .redirection _ _ _ rest, literal, piped => by
      rw [Items.words, List.forall_mem_cons, List.forall_mem_cons] at literal
      rw [Items.arguments, Items.map_argument rest literal.2.2 piped, Items.received]
  | .substitution link body rest, literal, piped => by
      rw [Items.readLinks, List.forall_mem_cons] at piped
      have others : ∀ word ∈ rest.words, ∀ number, word ≠ devFile number := fun word member =>
        literal word (List.mem_append_right _ (.tail _ member))
      rw [Items.arguments, List.map_cons, Child.argument_devFile piped.1,
        Items.map_argument rest others piped.2, Items.received]
      rfl

/-- A child that runs a stage has the output of the stage. -/
theorem Child.Runs.output_eq {own : Stream → Option OpenFile} {stage : WiredStage}
    (runs : child.Runs own opens stage) (literal : ∀ word ∈ stage.items.words, ∀ number,
      word ≠ devFile number) (inherited : ∃ serial, own .stdin = some (.inherited serial)) :
    child.output programs opens history = stage.written programs history := by
  have arguments : child.call.argv.tail = stage.items.arguments := by
    rw [runs.call]
    rfl
  have input : fileOf child.descriptors stdinFileno = stage.file own .stdin := runs.streams .stdin
  have read : programs.read opens history (stage.file own .stdin) =
      stage.items.input programs (stage.given programs history) := by
    rw [WiredStage.file, WiredStage.descriptor, Items.input]
    rcases stage.items.lastRedirection_request .stdin with
      ⟨none, same⟩ | ⟨request, _, redirected, same⟩
    · rw [none, same, Option.none_or, WiredStage.linked, WiredStage.given]
      cases stage.input with
      | some link => rfl
      | none =>
          obtain ⟨serial, shell⟩ := inherited
          simp only [Option.map_none, Option.none_or, shell]
          rfl
    · obtain ⟨serial, file, opened⟩ := runs.redirections .stdin _ redirected
      rw [same] at opened
      rw [redirected, same, Option.some_or, Option.map_some, Option.some_or, file]
      simp only [Programs.read, opened]
  have piped : ∀ link ∈ stage.items.readLinks,
      fileOf child.descriptors link.readEnd = some (.pipeRead link.serial) :=
    fun link member => runs.sources link (List.mem_append_left _ member)
  rw [Child.output, arguments, Items.map_argument stage.items literal piped, input, read,
    runs.call]
  rfl

end Runs

/-! ## The processes of a tree -/

/-- There is a process for each of the stages, and every process runs the stages it has been
launched for. -/
structure Staffed (own : Stream → Option OpenFile) (opens : List (CString × OpenMode))
    (stages : List WiredStage) (children : List Child) : Prop where
  calls : (children.map (·.call)).Perm (stages.map WiredStage.call)
  runs : ∀ child ∈ children, ∀ stage ∈ stages, stage.call = child.call →
    child.Runs own opens stage

section Staffed

variable {α : Type} {programs : Programs α} {opens : List (CString × OpenMode)}
  {history : Nat → α} {own : Stream → Option OpenFile} {children : List Child}
  {stages : List WiredStage}

theorem Staffed.exists_child (staffed : Staffed own opens stages children) {stage : WiredStage}
    (member : stage ∈ stages) : ∃ child ∈ children, child.Runs own opens stage := by
  have listed := staffed.calls.mem_iff.mpr (List.mem_map_of_mem member)
  obtain ⟨child, inside, call⟩ := List.mem_map.mp listed
  exact ⟨child, inside, staffed.runs child inside stage member call.symm⟩

theorem Staffed.exists_stage (staffed : Staffed own opens stages children) {child : Child}
    (member : child ∈ children) : ∃ stage ∈ stages, child.Runs own opens stage := by
  have listed := staffed.calls.mem_iff.mp (List.mem_map_of_mem member)
  obtain ⟨stage, inside, call⟩ := List.mem_map.mp listed
  exact ⟨stage, inside, staffed.runs child member stage inside call⟩

/-- The processes of some stages have the equations of the stages. -/
theorem Staffed.network_iff (staffed : Staffed own opens stages children)
    (standard : ∀ stream, ∃ serial, own stream = some (.inherited serial))
    (literal : ∀ stage ∈ stages, ∀ word ∈ stage.items.words, ∀ number, word ≠ devFile number)
    (placed : ∀ stage ∈ stages, stage.output ≠ none →
      stage.items.lastRedirection .stdout = none) :
    Network programs opens history children ↔ Solves programs history stages := by
  constructor
  · intro network stage member link found
    obtain ⟨child, inside, runs⟩ := staffed.exists_child member
    have output : stage.output = some link := found
    have free := placed stage member (by rw [output]; exact Option.some_ne_none _)
    have written := network child inside link.serial (by
      have stdout := runs.streams .stdout
      rw [WiredStage.file, WiredStage.descriptor, free, WiredStage.linked, output] at stdout
      exact stdout)
    rw [written, runs.output_eq (literal stage member) (standard .stdin)]
  · intro solves child inside serial piped
    obtain ⟨stage, member, runs⟩ := staffed.exists_stage inside
    have stdout : stage.file own .stdout = some (.pipeWrite serial) :=
      (runs.streams .stdout).symm.trans piped
    rw [WiredStage.file, WiredStage.descriptor] at stdout
    cases redirected : stage.items.lastRedirection .stdout with
    | some descriptor =>
        obtain ⟨_, file, _⟩ := runs.redirections .stdout descriptor redirected
        rw [redirected, Option.some_or, Option.map_some, Option.some_or, file] at stdout
        cases stdout
    | none =>
        rw [redirected, Option.none_or, WiredStage.linked] at stdout
        cases output : stage.output with
        | none =>
            obtain ⟨_, shell⟩ := standard .stdout
            rw [output, Option.map_none, Option.map_none, Option.none_or, shell] at stdout
            cases stdout
        | some link =>
            rw [output] at stdout
            cases stdout
            rw [solves stage member link output,
              runs.output_eq (literal stage member) (standard .stdin)]

end Staffed

/-- Processes that run the stages of a tree: there are data for the pipes with which each
pipe carries the output of its writer, and they are those that the tree says. The first
stage's output is that of the tree. -/
theorem Staffed.computes {own : Stream → Option OpenFile} {opens : List (CString × OpenMode)}
    {commandString : CString} {tree : Pipeline Labels.wired} {children : List Child}
    (staffed : Staffed own opens (tree.wiredStages commandString none none) children)
    (standard : ∀ stream, ∃ serial, own stream = some (.inherited serial))
    (literal : ∀ word ∈ tree.words, ∀ number, word ≠ devFile number)
    (placed : tree.Placed true true) (distinct : (tree.links.map (·.serial)).Nodup)
    {α : Type} (programs : Programs α) :
    (∃ history, Network programs opens history children) ∧
      ∀ history, Network programs opens history children →
        Follows history (tree.flows programs programs.input) ∧
          ∀ child ∈ children, child.call = tree.lastCall commandString none none →
            child.output programs opens history = tree.output programs programs.input := by
  have words : ∀ stage ∈ tree.wiredStages commandString none none,
      ∀ word ∈ stage.items.words, ∀ number, word ≠ devFile number := fun stage member word inside =>
    literal word ((tree.wiredStages_within commandString none none stage member).words inside)
  have iff : ∀ history : Nat → α, Network programs opens history children ↔
      Follows history (tree.flows programs programs.input) := by
    intro history
    rw [staffed.network_iff standard words
      (tree.wiredStages_placed commandString placed fun linked => absurd rfl linked),
      @Pipeline.solves_iff α programs history commandString none none programs.input rfl tree]
    simp
  constructor
  · have keys := (tree.flows_serials programs programs.input).nodup_iff.mpr distinct
    obtain ⟨history, follows⟩ := exists_follows programs.input keys
    exact ⟨history, (iff history).mpr follows⟩
  · intro history network
    have follows := (iff history).mp network
    refine ⟨follows, fun child inside call => ?_⟩
    have member := tree.lastStage_mem commandString none none
    rw [← tree.call_lastStage] at call
    have runs := staffed.runs child inside _ member call.symm
    rw [runs.output_eq (words _ member) (standard .stdin)]
    exact @Pipeline.written_lastStage α programs history commandString none none programs.input rfl
      tree follows

/-! ## The processes of a command -/

/-- What is recorded about the launch of a child. -/
def Child.launch (child : Child) : List Event := [.call child.call, .child child]

/-- The calls of a command without built-ins are launched in one process each. -/
theorem executeCalls_children {environment : Environment} {command : Command}
    {calls : List CommandCall} (external : ∀ call ∈ calls, isInternalCommand call = false) :
    ∀ {index : Nat} {info : Option InternalExitInfo} {job job' : Job} {chief : InternalExitInfo}
      {start finish : Shell},
      executeCalls environment command index info job calls start =
        .ok (some chief, job') finish →
      ∃ children : List Child, children.map (·.call) = calls ∧
        finish.control.trace = start.control.trace ++ children.flatMap Child.launch := by
  induction calls with
  | nil =>
      intro index info job job' chief start finish ran
      cases ran
      exact ⟨[], rfl, (List.append_nil _).symm⟩
  | cons call rest ih =>
      intro index info job job' chief start finish ran
      obtain ⟨own, others⟩ := List.forall_mem_cons.mp external
      obtain ⟨⟨first, job₁⟩, state, single, continued⟩ := bind_eq_ok.mp ran
      cases first with
      | none =>
          dsimp only at continued
          split at continued
          · obtain ⟨_, _, _, same⟩ := bind_eq_ok.mp continued
            cases same
          · cases continued
      | some first =>
          obtain ⟨_, _, _, descriptors, told⟩ := executeSingleCommand_forked own single
          obtain ⟨children, same, recorded⟩ := ih others continued
          refine ⟨{ pid := first.pid, command, call, descriptors } :: children, ?_, ?_⟩
          · rw [List.map_cons, same]
          · rw [recorded, told]
            simp [Child.launch]

/-- What the processes of a command compute, once all of them have been launched: each pipe
carries what the tree of the command's segment says, and the first process, which is that of
the last stage, has the output of the tree. No freed call is to be read while the line is parsed. -/
theorem launched_command_computes {environment : Environment} {cwd : CString}
    {inputs : List (Option CString)} {before start parsed state launched : Shell}
    {line : CString} {commands : List (Option Command)} {index : Nat} {command : Command}
    {info : InternalExitInfo} {job : Job}
    (ran : prompt environment inputs (initInternals cwd) = .ok ⟨⟩ before)
    (same : start.parser = before.parser)
    (intact : LineIntact environment.files line start.parser)
    (read : readLine environment line start = .ok (some commands) parsed)
    (comes : Comes environment commands parsed index command state)
    (launch : executeAsJob environment command (setupJob command) state =
      .ok (some info, job) launched)
    (external : ∀ call ∈ command.commandCalls, isInternalCommand call = false)
    (literal : ∀ segment ∈ segments line, ∀ word ∈ runs segment, ∀ number,
      word ≠ devFile number) :
    ∃ segment, ∃ (tree : Pipeline Labels.wired) (children : List Child),
      (segments line)[index]? = some segment ∧ tree.words = runs segment ∧
      launched.control.trace = state.control.trace ++ children.flatMap Child.launch ∧
      children.map (·.call) = command.commandCalls ∧
      ∀ {α : Type} (programs : Programs α),
        (∃ history, Network programs parsed.parser.kernel.opens history children) ∧
        ∀ history, Network programs parsed.parser.kernel.opens history children →
          Follows history (tree.flows programs programs.input) ∧
          ∃ first, children.head? = some first ∧
            first.output programs parsed.parser.kernel.opens history =
              tree.erase.output programs programs.input := by
  have valid : start.parser.kernel.Valid := same ▸ prompt_valid inputs ran
  have streams : start.parser.kernel.streams = startedShell.kernel.streams :=
    same ▸ prompt_streams inputs ran
  obtain ⟨segment, tree, _, made, based⟩ := comes.made valid intact read
  obtain ⟨children, calls, recorded⟩ := executeCalls_children external launch
  have forked : ∀ child ∈ children,
      child.Forked command (Needed parsed.parser.kernel [command]) := by
    have receives : Moves (Receiving command (Needed parsed.parser.kernel [command]))
        (executeAsJob environment command (setupJob command)) :=
      executeCalls_receives command.commandCalls (List.Subset.refl _) 0 none (setupJob command)
    obtain ⟨_, events, grown, forks⟩ := (receives state).of_ok launch based
    have equal : children.flatMap Child.launch = events :=
      List.append_cancel_left (recorded.symm.trans grown)
    intro child member
    have event : Event.child child ∈ children.flatMap Child.launch :=
      List.mem_flatMap.mpr ⟨child, member, .tail _ (.head _)⟩
    exact forks _ (equal ▸ event)
  have staffed : Staffed start.parser.kernel.streams parsed.parser.kernel.opens
      (tree.wiredStages segment none none) children := by
    constructor
    case calls =>
      rw [calls, tree.map_call_wiredStages]
      exact made.read.perm
    case runs =>
      exact fun child member stage inside call => (forked child member).runs valid made inside call
  have standard : ∀ stream, ∃ serial, start.parser.kernel.streams stream =
      some (.inherited serial) := by
    intro stream
    rw [streams]
    cases stream with
    | stdin => exact ⟨0, rfl⟩
    | stdout => exact ⟨1, rfl⟩
    | stderr => exact ⟨2, rfl⟩
  have words : tree.words = runs segment := by rw [made.read.words, words_commandSeparator]
  have distinct : (tree.links.map (·.serial)).Nodup := by
    rw [made.read.wires.serials]
    exact List.nodup_range'
  have typed : ∀ word ∈ tree.words, ∀ number, word ≠ devFile number := by
    rw [words]
    exact literal segment (List.mem_of_getElem? made.found)
  refine ⟨segment, tree, children, made.found, words, recorded, calls, fun programs => ?_⟩
  obtain ⟨solution, solutions⟩ := staffed.computes standard typed made.read.placed distinct programs
  refine ⟨solution, fun history network => ?_⟩
  obtain ⟨follows, last⟩ := solutions history network
  refine ⟨follows, ?_⟩
  have first := made.read.first
  rw [← calls, List.head?_map] at first
  obtain ⟨child, head, call⟩ := Option.map_eq_some_iff.mp first
  refine ⟨child, head, ?_⟩
  rw [last child (List.mem_of_mem_head? head) call, Pipeline.output_erase]

/-- The three processes of `a <( b ) | c`. -/
theorem substitution_and_pipe_compute :
    ∃ (children : List Child) (opens : List (CString × OpenMode)),
      children.map (·.call.name) = ["c".toList, "b".toList, "a".toList] ∧
      ∀ {α : Type} (programs : Programs α), ∃ history,
        Network programs opens history children := by
  obtain ⟨commands, parsed, read, checked⟩ := exists_of_returns
    (show returns (fun commands (parsed : Shell) => commands.any fun entries =>
        entries.head?.any fun entry => entry.any fun command =>
          decide (command.commandCalls.map (·.name) = ["c".toList, "b".toList, "a".toList]) &&
          returns (fun result _ => result.1.isSome) (executeAsJob .exiting command
            (setupJob command) (parsed.recording (.command command entries.tail))))
      (readLine .exiting "a <( b ) | c".toList (initInternals "/".toList)) = true by
        decide +kernel)
  obtain ⟨entries, rfl, first⟩ := (Option.any_eq_true _ _).mp checked
  obtain ⟨entry, head, found⟩ := (Option.any_eq_true _ _).mp first
  obtain ⟨command, rfl, both⟩ := (Option.any_eq_true _ _).mp found
  obtain ⟨names, launched⟩ := Bool.and_eq_true_iff.mp both
  obtain ⟨⟨info, job⟩, state, launch, present⟩ := exists_of_returns launched
  obtain ⟨info, rfl⟩ := Option.isSome_iff_exists.mp present
  obtain ⟨later, rfl⟩ := List.head?_eq_some_iff.mp head
  have names := of_decide_eq_true names
  have external : ∀ call ∈ command.commandCalls, isInternalCommand call = false := by
    have none : ∀ name ∈ command.commandCalls.map (·.name),
        internalCommands.contains name = false := by
      rw [names]
      decide
    exact fun call member => none call.name (List.mem_map_of_mem member)
  have literal : ∀ segment ∈ segments "a <( b ) | c".toList, ∀ word ∈ runs segment, ∀ number,
      word ≠ devFile number := by
    have relative : ∀ segment ∈ segments "a <( b ) | c".toList, ∀ word ∈ runs segment,
        word.head? ≠ some '/' := by decide +kernel
    rintro segment member word inside number rfl
    exact relative segment member _ inside rfl
  have intact : LineIntact Environment.exiting.files "a <( b ) | c".toList startedShell :=
    lineIntact_of_lastExitCode (by decide +kernel)
  have ran : prompt .exiting [] (initInternals "/".toList) =
      .ok ⟨⟩ (initInternals "/".toList) := rfl
  obtain ⟨_, _, children, _, _, _, calls, computes⟩ :=
    launched_command_computes ran rfl intact read .now launch external literal
  refine ⟨children, parsed.parser.kernel.opens, ?_, fun programs => (computes programs).1⟩
  rw [← names, ← calls, List.map_map]
  rfl

end Jsh
