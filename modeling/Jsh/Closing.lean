import Jsh.FreedDescriptors
import Jsh.ShellMoves

/-!
# What the execution of a command closes

After a command has been executed nothing that was opened for it is open in the shell.
-/

set_option autoImplicit false

namespace Jsh

open Library

/-! ## Links and stages -/

section Links

variable {labels : Labels}

mutual

/-- There is a link less than there are stages. -/
theorem Pipeline.length_links : ∀ tree : Pipeline labels, tree.links.length + 1 = tree.size
  | .mk _ items next => by
      rw [Pipeline.links, Pipeline.size, List.length_append, Items.length_links items,
        Next.length_links next]

theorem Items.length_links : ∀ items : Items labels, items.links.length = items.size
  | .nil => rfl
  | .word _ rest => Items.length_links rest
  | .redirection _ _ _ rest => Items.length_links rest
  | .substitution _ body rest => by
      rw [Items.links, Items.size, List.cons_append, List.length_cons, List.length_append,
        Items.length_links rest, ← Pipeline.length_links body]
      omega

theorem Next.length_links : ∀ next : Next labels, next.links.length = next.size
  | .last => rfl
  | .pipe _ rest => by
      rw [Next.links, Next.size, List.length_append, ← Pipeline.length_links rest]
      rfl

end

end Links

/-- A command of one call has no pipe. -/
theorem CommandRead.single {outcomes : FileOutcomes} {commandString : CString}
    {state state' : ParserState} {command : Command} {tree : Pipeline Labels.wired}
    (read : CommandRead outcomes commandString state state' command tree) {call : CommandCall}
    (single : command.commandCalls = [call]) : command.openPipes = [] := by
  have calls := read.perm.length_eq
  rw [single, Pipeline.calls_length, ← tree.length_links] at calls
  have none : tree.links = [] := List.eq_nil_of_length_eq_zero (by simpa using calls)
  rw [read.openPipes, none]
  rfl

/-! ## Execution -/

/-- The parser's state is left as it is. -/
def SameParser (start finish : Shell) : Prop := finish.parser = start.parser

instance : Std.Refl SameParser where
  refl _ := rfl

instance : IsTrans Shell SameParser where
  trans _ _ _ before after := after.trans before

theorem liftJob_keepsParser {α : Type} (action : JobAction α) : Moves SameParser (liftJob action) := by
  intro start
  unfold Ends liftJob
  cases action start.control with
  | ok value control => rfl
  | error halt control => rfl

/-- Once its pipes are closed, the execution of a command opens nothing. -/
theorem executeExternalCommand_closed {environment : Environment} {command : Command}
    {start finish : Shell} {result : CommandResult}
    (ran : executeExternalCommand environment command start = .ok result finish) :
    ∃ kernel, finish.parser.kernel = closePipes command.openPipes kernel := by
  obtain ⟨⟨info, job⟩, launched, _, ran⟩ := bind_eq_ok.mp ran
  obtain ⟨_, closed, closing, ran⟩ := bind_eq_ok.mp ran
  have same : SameParser closed finish := by
    refine Ends.of_ok ?_ ran
    cases info with
    | none => exact Moves.pure _ _
    | some info =>
        dsimp only
        split
        · exact liftJob_keepsParser _ _
        · refine ((liftJob_keepsParser _).bind fun waited => (liftJob_keepsParser _).bind fun given => ?_) _
          split
          · exact .throw _
          · split
            · exact .pure _
            · split
              · exact .pure _
              · exact liftJob_keepsParser _
  cases closing
  exact ⟨launched.parser.kernel, congrArg ParserState.kernel same⟩

/-- The numbers opened for a command are not open after its execution. -/
theorem executeCommand_closes {environment : Environment} {command : Command} {start finish : Shell}
    {result : CommandResult}
    (single : ∀ call, command.commandCalls = [call] → command.openPipes = [])
    (ran : executeCommand environment command start = .ok result finish) {number : Int}
    (owned : number ∈ pipeNumbers command.openPipes ∨ command.OwnsFile number) :
    number ∉ finish.parser.kernel.numbers := by
  obtain ⟨result', executed, runs, ran⟩ := bind_eq_ok.mp ran
  cases ran
  intro opened
  obtain ⟨descriptor, member, rfl⟩ := Kernel.mem_numbers.mp opened
  obtain ⟨kept, spared⟩ := mem_closeUnusedFileDescriptors.mp member
  rcases owned with pipe | ⟨above, noPipe, once⟩
  · rcases runCommand_eq environment command with ⟨call, one, _, _⟩ | ⟨_, same⟩
    · rw [single call one] at pipe
      cases pipe
    · rw [same] at runs
      obtain ⟨kernel, closed⟩ := executeExternalCommand_closed runs
      rw [closed] at kept
      exact (mem_closePipes.mp kept).2 pipe
  · obtain ⟨call, member, inside⟩ := List.countP_pos_iff.mp (once ▸ Nat.one_pos)
    exact spared ⟨List.mem_flatMap.mpr ⟨call, member, of_decide_eq_true inside⟩, above, noPipe⟩

/-- What `parse_command` opens is closed again when it returns `NULL`; else it is the ends
of the command's pipes and the files of its calls, and is closed when the command has been
executed. -/
structure DescriptorsClosed (outcomes : FileOutcomes) (commandString : CString)
    (state : ParserState) : Prop where
  refused : ∀ state', parseCommand outcomes commandString state = (none, state') →
    ∀ number, number ∈ state'.kernel.numbers ↔ number ∈ state.kernel.numbers
  kept : ∀ command state', parseCommand outcomes commandString state = (some command, state') →
    ∀ number ∈ state.kernel.numbers, number ∈ state'.kernel.numbers
  opened : ∀ command state', parseCommand outcomes commandString state = (some command, state') →
    ∀ number, (number ∈ state'.kernel.numbers ∧ number ∉ state.kernel.numbers) ↔
      number ∈ pipeNumbers command.openPipes ∨ command.OwnsFile number
  executed : ∀ command state', parseCommand outcomes commandString state = (some command, state') →
    ∀ (environment : Environment) (start finish : Shell) (result : CommandResult),
      start.parser = state' → executeCommand environment command start = .ok result finish →
      ∀ number, number ∈ state'.kernel.numbers → number ∉ state.kernel.numbers →
        number ∉ finish.parser.kernel.numbers

/-- A rejected string on which no freed call is read, or one without redirections while
nothing but the standard descriptors is open, leaves the table as it was. -/
theorem parseCommand_numbers {outcomes : FileOutcomes} {commandString : CString}
    {state state' : ParserState} (valid : state.kernel.Valid)
    (pipes : ∀ serial, outcomes.pipeSucceeds serial = true)
    (harmless : ∀ own, ReadsFreedCall outcomes commandString state own →
      own = false ∧ ∀ number ∈ state.kernel.numbers, number ≤ 2)
    (refused : parseCommand outcomes commandString state = (none, state')) (number : Int) :
    number ∈ state'.kernel.numbers ↔ number ∈ state.kernel.numbers := by
  obtain ⟨kept, closed⟩ : (∀ descriptor ∈ state.kernel.descriptors,
      descriptor ∈ state'.kernel.descriptors) ∧ ∀ descriptor ∈ state'.kernel.descriptors,
        True → descriptor ∈ state.kernel.descriptors := by
    obtain ⟨_, all | ⟨own, reads, kept, closed⟩⟩ :=
      parseCommand_none valid (show Complete (fun _ => True) outcomes from .inl pipes) refused
    · exact all
    · obtain ⟨unredirected, standard⟩ := harmless own reads
      refine ⟨fun descriptor member => kept descriptor member fun above => ?_,
        closed unredirected⟩
      exact absurd (standard _ (Kernel.mem_numbers.mpr ⟨descriptor, member, rfl⟩)) (by omega)
  simp only [Kernel.mem_numbers]
  constructor
  · rintro ⟨descriptor, member, same⟩
    exact ⟨descriptor, closed descriptor member trivial, same⟩
  · rintro ⟨descriptor, member, same⟩
    exact ⟨descriptor, kept descriptor member, same⟩

/-- Whatever the memory of a freed call holds, what `parse_command` opens is closed, exactly
if no freed call is read, or one without redirections while nothing but the standard
descriptors is open. -/
theorem parseCommand_descriptors_iff {outcomes : FileOutcomes} {state : ParserState}
    (fresh : FreshShell state) (pipes : ∀ serial, outcomes.pipeSucceeds serial = true)
    (commandString : CString) :
    (∀ freed, DescriptorsClosed { outcomes with freed } commandString state) ↔
      ∀ own, ReadsFreedCall outcomes commandString state own →
        own = false ∧ ∀ number ∈ state.kernel.numbers, number ≤ 2 := by
  constructor
  · intro closed own reads
    constructor
    · -- Its files stay open if the fields hold standard descriptors.
      by_contra redirects
      obtain ⟨state', refused, _, left⟩ :=
        ((readsFreedCall_withFreed fun _ => ⟨0, 1, 2⟩).mpr reads).rejected fresh.valid
      obtain ⟨number, opened, new⟩ := left (by simpa using redirects) untouched_standard
      exact new (((closed _).refused state' refused number).mp opened)
    · -- Any other descriptor may be closed.
      intro number opened
      by_contra above
      obtain ⟨state', refused, gone, _⟩ :=
        ((readsFreedCall_withFreed fun _ => ⟨number, number, number⟩).mpr reads).rejected fresh.valid
      refine gone number (by omega) (fun _ => .head _) ?_
      exact ((closed _).refused state' refused number).mpr opened
  · intro harmless freed
    constructor
    case refused =>
      intro state' refused
      exact @parseCommand_numbers { outcomes with freed } commandString state state' fresh.valid
        pipes (fun own reads => harmless own ((readsFreedCall_withFreed freed).mp reads)) refused
    case kept =>
      intro command state' accepted number member
      obtain ⟨descriptor, inside, same⟩ := Kernel.mem_numbers.mp member
      exact Kernel.mem_numbers.mpr
        ⟨descriptor, (parseCommand_opened fresh.valid accepted).1 descriptor inside, same⟩
    case opened => exact fun _ _ accepted => (parseCommand_opened fresh.valid accepted).2
    case executed =>
      intro command state' accepted environment start finish result _ ran number after before
      obtain ⟨tree, read⟩ := parseCommand_some fresh.valid accepted
      have owned := ((parseCommand_opened fresh.valid accepted).2 number).mp ⟨after, before⟩
      exact executeCommand_closes (fun call => read.single) ran owned

/-- The pipe of a substitution and the file of a redirection. -/
theorem substitution_descriptors :
    (parseCommand .allSucceed "cat <( ls ) > f".toList startedShell).1.isSome = true ∧
      ∀ freed, DescriptorsClosed { FileOutcomes.allSucceed with freed } "cat <( ls ) > f".toList
        startedShell := by
  have accepted : (parseCommand .allSucceed "cat <( ls ) > f".toList startedShell).1.isSome =
      true := by decide +kernel
  refine ⟨accepted, (parseCommand_descriptors_iff fresh_startedShell (fun _ => rfl) _).mpr ?_⟩
  intro own reads
  obtain ⟨state', refused, _⟩ := reads.rejected valid_startedShell
  rw [refused] at accepted
  cases accepted

/-- The call of `b > f` is freed before its descriptors are read; with 0 in its fields by
then, the file stays open. -/
theorem freed_call_leaves_file_open :
    FreshShell startedShell ∧
      ¬ DescriptorsClosed .allSucceed "a <( b > f )".toList startedShell := by
  refine ⟨fresh_startedShell, fun closed => ?_⟩
  have refused : (parseCommand .allSucceed "a <( b > f )".toList startedShell).1 = none := by
    decide +kernel
  have opened : (5 : Int) ∈
      (parseCommand .allSucceed "a <( b > f )".toList startedShell).2.kernel.numbers := by
    decide +kernel
  have before := (closed.refused _ (Prod.ext refused rfl) 5).mp opened
  exact absurd before (by decide)

end Jsh
