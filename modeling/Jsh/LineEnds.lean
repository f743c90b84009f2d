import Jsh.Inheritance
import Jsh.JobTable
import Jsh.RejectedLines
import Jsh.Runs

/-!
# Pipes of a line

All pipes of a line are made before its first command is executed, so that a child has
the ends of the pipes of the commands after its own.
-/

set_option autoImplicit false

namespace Jsh

open Library

/-! ## Strings without pipes -/

/-- No word of the string is a pipe symbol or starts a substitution. -/
def Unpiped (commandString : CString) : Prop :=
  ∀ word ∈ runs commandString, word ≠ pipeSymbol ∧ word ≠ commandSubstitutionStart

theorem Word.unpiped (word : Word) :
    word.text ≠ pipeSymbol ∧ word.text ≠ commandSubstitutionStart :=
  ⟨word.ne_symbol (by decide), word.ne_symbol (by decide)⟩

mutual

theorem Pipeline.unpiped_iff : ∀ tree : Pipeline Labels.wired,
    (∀ word ∈ tree.words, word ≠ pipeSymbol ∧ word ≠ commandSubstitutionStart) ↔ tree.links = []
  | .mk name items .last => by
      have own := Items.unpiped_iff items
      simp only [Pipeline.words, Next.words, List.append_nil, List.forall_mem_cons, name.unpiped,
        Pipeline.links, Next.links, ne_eq, not_false_eq_true, and_self, true_and]
      exact own
  | .mk name items (.pipe link rest) => by
      simp [Pipeline.words, Next.words, Pipeline.links, Next.links, or_imp, forall_and]

theorem Items.unpiped_iff : ∀ items : Items Labels.wired,
    (∀ word ∈ items.words, word ≠ pipeSymbol ∧ word ≠ commandSubstitutionStart) ↔ items.links = []
  | .nil => by simp [Items.words, Items.links]
  | .word argument rest => by
      have following := Items.unpiped_iff rest
      simp only [Items.words, List.forall_mem_cons, argument.unpiped, Items.links, ne_eq,
        not_false_eq_true, and_self, true_and]
      exact following
  | .redirection symbol file label rest => by
      have following := Items.unpiped_iff rest
      have caret : symbol.text ≠ pipeSymbol ∧ symbol.text ≠ commandSubstitutionStart := by
        cases symbol <;> decide
      simp only [Items.words, List.forall_mem_cons, caret, file.unpiped, Items.links, ne_eq,
        not_false_eq_true, and_self, true_and]
      exact following
  | .substitution link body rest => by
      simp [Items.words, Items.links]

end

/-! ## The pipes of a command -/

theorem link_distinct {links : List Link} {kernel : Kernel} (valid : kernel.Valid)
    (count : ∀ descriptor, (links.flatMap Link.descriptors).count descriptor ≤
      kernel.descriptors.count descriptor) :
    (pipeNumbers (links.map (·.ends))).Nodup := by
  have below : (links.flatMap Link.descriptors).Subperm kernel.descriptors :=
    List.subperm_ext_iff.mpr fun descriptor _ => count descriptor
  obtain ⟨ends, perm, sublist⟩ := below
  have distinct : ((links.flatMap Link.descriptors).map (·.number)).Nodup :=
    (perm.map _).nodup_iff.mp (valid.distinct.sublist (sublist.map _))
  have same : (pipeNumbers (links.map (·.ends))).Perm
      ((links.flatMap Link.descriptors).map (·.number)) := by
    clear count perm sublist distinct
    induction links with
    | nil => exact .nil
    | cons link links ih =>
        simp only [List.map_cons, pipeNumbers, List.flatMap_cons, Link.descriptors, List.map_append]
        exact .append (.swap _ _ _) ih
  exact same.nodup_iff.mpr distinct

/-- What `parse_command` has opened for the command it returns. -/
structure Obtained (commandString : CString) (command : Command) (kernel kernel' : Kernel) :
    Prop where
  valid : kernel'.Valid
  kept : ∀ descriptor ∈ kernel.descriptors, descriptor ∈ kernel'.descriptors
  pipes : kernel.pipes ≤ kernel'.pipes
  sound : command.Sound
  distinct : (pipeNumbers command.openPipes).Nodup
  claimed : ∀ number, command.Claims number → number ∈ kernel'.numbers ∧ number ∉ kernel.numbers
  ends : ∀ descriptor ∈ kernel'.descriptors, ∀ serial, descriptor.IsEnd serial →
    descriptor ∈ kernel.descriptors ∨ descriptor.number ∈ pipeNumbers command.openPipes
  made : ∀ number ∈ pipeNumbers command.openPipes, ∃ descriptor ∈ kernel'.descriptors,
    ∃ serial, descriptor.IsEnd serial ∧ kernel.pipes ≤ serial ∧ descriptor.number = number
  unpiped : Unpiped commandString ↔ command.openPipes = []

theorem parseCommand_obtained {outcomes : FileOutcomes} {commandString : CString}
    {state state' : ParserState} {command : Command} (valid : state.kernel.Valid)
    (accepted : parseCommand outcomes commandString state = (some command, state')) :
    Obtained commandString command state.kernel state'.kernel := by
  obtain ⟨tree, read⟩ := parseCommand_some valid accepted
  have pipes : ∀ number, number ∈ pipeNumbers command.openPipes ↔
      ∃ descriptor ∈ tree.links.flatMap Link.descriptors, descriptor.number = number := by
    intro number
    rw [read.openPipes]
    exact mem_link_descriptors
  constructor
  case valid => exact read.wires.valid
  case kept => exact fun descriptor member => read.mem_descriptors.mpr (.inl member)
  case pipes => exact read.wires.pipes ▸ Nat.le_add_right _ _
  case sound =>
    refine ⟨fun number member => ?_, fun call => read.single⟩
    rw [read.openPipes] at member
    obtain ⟨_, listed, same⟩ := mem_pipeNumbers.mp member
    obtain ⟨link, inside, rfl⟩ := List.mem_map.mp listed
    have above := read.wires.endsAbove link inside
    rcases same with rfl | rfl
    · exact above.1
    · exact above.2
  case distinct =>
    rw [read.openPipes]
    exact link_distinct read.wires.valid fun descriptor => by
      have := read.wires.descriptors descriptor
      rw [List.count_nil] at this
      omega
  case claimed =>
    intro number claims
    by_cases pipe : number ∈ pipeNumbers command.openPipes
    · obtain ⟨descriptor, member, rfl⟩ := (pipes number).mp pipe
      exact (read.entered (List.mem_append_left _ member)).2
    · obtain ⟨above, inside⟩ := claims.resolve_left pipe
      rw [read.openPipes] at pipe
      rw [(read.perm.flatMap_right _).mem_iff,
        tree.mem_fds_iff above commandString (by simp) (by simp) pipe] at inside
      obtain ⟨descriptor, member, rfl⟩ := List.mem_map.mp inside
      exact (read.entered (List.mem_append_right _ member)).2
  case ends =>
    intro descriptor member serial own
    refine (read.mem_descriptors.mp member).imp_right fun new => ?_
    rcases List.mem_append.mp new with link | file
    · exact (pipes _).mpr ⟨descriptor, link, rfl⟩
    · have kind := List.mem_map_of_mem (f := Descriptor.file) (tree.files_subset file)
      rw [read.wires.files] at kind
      obtain ⟨_, _, same⟩ := List.mem_map.mp kind
      rcases own with other | other <;> rw [← same] at other <;> cases other
  case made =>
    intro number member
    obtain ⟨descriptor, link, rfl⟩ := (pipes number).mp member
    refine ⟨descriptor, (read.entered (List.mem_append_left _ link)).1, ?_⟩
    obtain ⟨link, inside, shape⟩ := List.mem_flatMap.mp link
    have serial := List.mem_map_of_mem (f := Link.serial) inside
    rw [read.wires.serials, List.mem_range'_1] at serial
    refine ⟨link.serial, ?_, serial.1, rfl⟩
    simp only [Link.descriptors, List.mem_cons, List.not_mem_nil, or_false] at shape
    rcases shape with rfl | rfl
    · exact .inr rfl
    · exact .inl rfl
  case unpiped =>
    rw [Unpiped, ← words_commandSeparator, ← read.words, tree.unpiped_iff, read.openPipes]
    simp

/-! ## The pipes of a line -/

/-- What has been opened for the commands of a line since `first` pipes had been made. -/
structure LineOpened (first : Nat) (kernel : Kernel) (commands : List Command) : Prop where
  valid : kernel.Valid
  sound : ∀ command ∈ commands, command.Sound
  distinct : ∀ command ∈ commands, (pipeNumbers command.openPipes).Nodup
  claimed : ∀ command ∈ commands, ∀ number, command.Claims number → number ∈ kernel.numbers
  apart : commands.Pairwise fun before after =>
    ∀ number, before.Claims number → number ∉ pipeNumbers after.openPipes
  ends : ∀ descriptor ∈ kernel.descriptors, ∀ serial, descriptor.IsEnd serial → first ≤ serial →
    ∃ command ∈ commands, descriptor.number ∈ pipeNumbers command.openPipes
  made : ∀ command ∈ commands, ∀ number ∈ pipeNumbers command.openPipes,
    ∃ descriptor ∈ kernel.descriptors, ∃ serial, descriptor.IsEnd serial ∧ first ≤ serial ∧
      descriptor.number = number

theorem numbers_mono {kernel kernel' : Kernel}
    (kept : ∀ descriptor ∈ kernel.descriptors, descriptor ∈ kernel'.descriptors) {number : Int}
    (member : number ∈ kernel.numbers) : number ∈ kernel'.numbers := by
  obtain ⟨descriptor, inside, same⟩ := Kernel.mem_numbers.mp member
  exact Kernel.mem_numbers.mpr ⟨descriptor, kept descriptor inside, same⟩

theorem LineOpened.nil {kernel : Kernel} (valid : kernel.Valid) :
    LineOpened kernel.pipes kernel [] := by
  constructor
  case valid => exact valid
  case apart => exact .nil
  case ends =>
    intro descriptor member serial own late
    exact absurd (valid.serials descriptor member serial own) (Nat.not_lt.mpr late)
  all_goals simp

/-- A segment that is rejected closes its pipes, unless a freed call is read. -/
theorem LineOpened.rejected {first : Nat} {outcomes : FileOutcomes} {segment : CString}
    {state state' : ParserState} {commands : List Command}
    (opened : LineOpened first state.kernel commands)
    (refused : parseCommand outcomes segment state = (none, state'))
    (intact : ∀ own, ¬ ReadsFreedCall outcomes segment state own) :
    LineOpened first state'.kernel commands := by
  have complete : Complete (fun descriptor => ∃ serial, descriptor.IsEnd serial) outcomes := by
    refine .inr fun descriptor own serial file => ?_
    obtain ⟨_, own | own⟩ := own <;> rw [file] at own <;> cases own
  obtain ⟨valid, _⟩ := parseCommand_none opened.valid complete refused
  obtain ⟨kept, closed⟩ := parseCommand_closes opened.valid complete intact refused
  constructor
  case valid => exact valid
  case sound => exact opened.sound
  case distinct => exact opened.distinct
  case claimed =>
    exact fun command member number claims =>
      numbers_mono kept (opened.claimed command member number claims)
  case apart => exact opened.apart
  case ends =>
    exact fun descriptor member serial own =>
      opened.ends descriptor (closed descriptor member ⟨serial, own⟩) serial own
  case made =>
    intro command member number inside
    obtain ⟨descriptor, present, serial, rest⟩ := opened.made command member number inside
    exact ⟨descriptor, kept descriptor present, serial, rest⟩

/-- The next command, whose flag for the background does not matter. -/
theorem LineOpened.accepted {first : Nat} {segment : CString} {kernel kernel' : Kernel}
    {commands : List Command} {command : Command} (opened : LineOpened first kernel commands)
    (early : first ≤ kernel.pipes) (obtained : Obtained segment command kernel kernel')
    (background : Bool) :
    LineOpened first kernel' (commands ++ [{ command with background }]) := by
  have each : ∀ {property : Command → Prop}, (∀ other ∈ commands, property other) →
      property { command with background } →
      ∀ other ∈ commands ++ [{ command with background }], property other := by
    intro property old new other member
    cases List.mem_append.mp member with
    | inl before => exact old other before
    | inr last => exact List.mem_singleton.mp last ▸ new
  constructor
  case valid => exact obtained.valid
  case sound => exact each opened.sound ⟨obtained.sound.above, obtained.sound.single⟩
  case distinct => exact each opened.distinct obtained.distinct
  case claimed =>
    refine each (fun other member number claims => ?_) fun number claims =>
      (obtained.claimed number claims).1
    exact numbers_mono obtained.kept (opened.claimed other member number claims)
  case apart =>
    refine List.pairwise_append.mpr ⟨opened.apart, List.pairwise_singleton _ _, ?_⟩
    intro other member _ last number claims pipe
    cases List.mem_singleton.mp last
    exact (obtained.claimed number (.inl pipe)).2 (opened.claimed other member number claims)
  case ends =>
    intro descriptor member serial own late
    cases obtained.ends descriptor member serial own with
    | inl old =>
        obtain ⟨other, inside, pipe⟩ := opened.ends descriptor old serial own late
        exact ⟨other, List.mem_append_left _ inside, pipe⟩
    | inr new => exact ⟨_, List.mem_append_right _ (.head _), new⟩
  case made =>
    refine each (fun other member number inside => ?_) fun number inside => ?_
    · obtain ⟨descriptor, present, serial, rest⟩ := opened.made other member number inside
      exact ⟨descriptor, obtained.kept descriptor present, serial, rest⟩
    · obtain ⟨descriptor, present, serial, own, late, same⟩ := obtained.made number inside
      exact ⟨descriptor, present, serial, own, Nat.le_trans early late, same⟩

/-- The segments and the commands they have been parsed to. -/
def SamePipes : List CString → List Command → Prop :=
  List.Forall₂ fun segment command => Unpiped segment ↔ command.openPipes = []

/-- The loop of `parse_read_line`, when it does not abort. -/
theorem foldl_parseSegment_opened {outcomes : FileOutcomes} {total first : Nat} {last : Int}
    (segments : List CString) : ∀ {loop final : LineLoop} {earlier : List Command},
    segments.foldl (parseSegment outcomes total last) loop = final →
    loop.abort = false → loop.trimLast = false →
    loop.commands.length + segments.length = total → loop.commands = earlier.map some →
    LineOpened first loop.parser.kernel earlier → first ≤ loop.parser.kernel.pipes →
    final.abort = false →
    ∃ later, (∀ command ∈ earlier ++ later, command.Sound) ∧
      ((∀ own, ¬ SegmentsReadFreed outcomes loop.parser segments own) →
        LineOpened first final.parser.kernel (earlier ++ later)) ∧
      SamePipes (segments.take later.length) later ∧
      later.length + final.trimLast.toNat = segments.length ∧
      final.commands = (earlier ++ later).map some ++ List.replicate final.trimLast.toNat none := by
  induction segments with
  | nil =>
      rintro loop _ earlier rfl going untrimmed _ stored opened _ _
      exact ⟨[], by simpa using opened.sound, fun _ => by simpa using opened, .nil,
        by simp [untrimmed], by simp [untrimmed, stored]⟩
  | cons segment segments ih =>
      intro loop final earlier ran going untrimmed counted stored opened early finished
      rw [List.length_cons] at counted
      rw [List.foldl_cons] at ran
      cases parsed : parseCommand outcomes segment loop.parser with
      | mk result parser =>
          cases result with
          | none =>
              cases segments with
              | nil =>
                  have atLast : loop.commands.length = total - 1 := by
                    rw [List.length_nil] at counted
                    omega
                  have next : parseSegment outcomes total last loop segment =
                      { loop with
                        parser, lastExitCode := 1, commands := loop.commands ++ [none]
                        trimLast := true } := by
                    simp [parseSegment, going, parsed, atLast]
                  rw [List.foldl_nil, next] at ran
                  cases ran
                  refine ⟨[], by simpa using opened.sound, fun intact => ?_, .nil, rfl,
                    by simp [stored]⟩
                  rw [List.append_nil]
                  refine opened.rejected parsed fun own reads => intact own ?_
                  exact segmentsReadFreed_of_rejected (by rw [parsed]) reads
              | cons other others =>
                  have notLast : loop.commands.length ≠ total - 1 := by
                    rw [List.length_cons] at counted
                    omega
                  have aborted := foldl_parseSegment_abort outcomes total last (other :: others)
                    (show (parseSegment outcomes total last loop segment).abort = true by
                      simp [parseSegment, going, parsed, notLast])
                  rw [ran, finished] at aborted
                  cases aborted
          | some command =>
              have obtained := parseCommand_obtained opened.valid parsed
              obtain ⟨background, next⟩ : ∃ background,
                  parseSegment outcomes total last loop segment =
                    { loop with
                      parser
                      commands := loop.commands ++ [some { command with background }] } := by
                by_cases flagged : (loop.commands.length : Int) ≤ last
                · exact ⟨true, by simp [parseSegment, going, parsed, flagged]⟩
                · exact ⟨command.background, by simp [parseSegment, going, parsed, flagged]⟩
              have longer := opened.accepted early obtained background
              rw [next] at ran
              obtain ⟨later, sound, opened', same, length, commands⟩ := ih ran
                going untrimmed (by simp only [List.length_append, List.length_singleton]; omega)
                (by simp [stored]) longer (Nat.le_trans early obtained.pipes) finished
              refine ⟨{ command with background } :: later, by simpa using sound, fun intact => ?_,
                .cons obtained.unpiped same, ?_, ?_⟩
              · rw [List.append_cons]
                exact opened' fun own reads =>
                  intact own (segmentsReadFreed_of_accepted parsed reads)
              · rw [List.length_cons, List.length_cons, ← length]
                omega
              · simpa using commands

theorem parseReadLine_opened {outcomes : FileOutcomes} {line : CString} {parser : ParserState}
    {lastExitCode : Int} {commands : List (Option Command)} (valid : parser.kernel.Valid)
    (returned : (parseReadLine outcomes line parser lastExitCode).commands = some commands) :
    ∃ accepted : List Command, commands = accepted.map some ∧
      (∀ command ∈ accepted, command.Sound) ∧
      (LineIntact outcomes line parser →
        LineOpened parser.kernel.pipes
          (parseReadLine outcomes line parser lastExitCode).parser.kernel accepted) ∧
      SamePipes ((segments line).take accepted.length) accepted := by
  obtain ⟨tokens, size⟩ := splitStringKeepTrace_backgroundFlag line
  unfold parseReadLine at returned ⊢
  by_cases flagged : startsWith line backgroundFlag.text = true
  · rw [if_pos flagged] at returned
    cases returned
  · rw [if_neg flagged] at returned ⊢
    dsimp only at returned ⊢
    rw [tokens, size] at returned ⊢
    by_cases empty : (segments line).length = 0
    · rw [if_pos empty] at returned
      cases returned
    · rw [if_neg empty] at returned ⊢
      dsimp only at returned ⊢
      generalize ran : (segments line).foldl (parseSegment outcomes (segments line).length
        (splitStringKeepTrace line backgroundFlag).last)
        { parser, lastExitCode, commands := [], abort := false, trimLast := false } = final
        at returned ⊢
      cases going : final.abort with
      | true =>
          rw [if_pos going] at returned
          cases returned
      | false =>
          obtain ⟨later, sound, opened, same, length, stored⟩ :=
            foldl_parseSegment_opened (segments line) ran rfl rfl (Nat.zero_add _) rfl (.nil valid)
              (Nat.le_refl _) going
          have unflagged := Bool.eq_false_iff.mpr flagged
          refine ⟨later, ?_, sound, fun intact => ?_, same⟩
          case refine_2 => exact opened fun own reads => intact own ⟨unflagged, reads⟩
          rw [if_neg (by simp [going])] at returned
          rw [List.nil_append] at stored
          cases trimmed : final.trimLast with
          | false =>
              rw [if_pos (by simp [trimmed]), stored, trimmed] at returned
              simpa using returned.symm
          | true =>
              rw [trimmed] at length stored
              have shorter : (segments line).length - 1 = (later.map some).length := by
                rw [List.length_map, ← length]
                rfl
              rw [if_neg (by simp [trimmed]), stored, shorter, List.take_left] at returned
              split at returned
              · cases returned
              · exact (Option.some.inj returned).symm

/-! ## The execution of a line -/

/-- The number is the read end of a pipe the call reads from, or the write end of one it
writes to. -/
def Child.Owns (child : Child) (number : Int) : Prop :=
  ∃ index pipe, child.command.openPipes[index]? = some pipe ∧
    (pipe.1 = number ∧ index ∈ child.call.readingPipes ∨
      pipe.2 = number ∧ index ∈ child.call.writingPipes)

/-- Of the ends of the pipes made for a line, after the `first` ones and before the end of
its parse, the child has its own ones and no others. -/
def HoldsOwnEnds (first : Nat) (parsed : Kernel) (child : Child) : Prop :=
  ∀ descriptor serial, descriptor.IsEnd serial → first ≤ serial → serial < parsed.pipes →
    2 < descriptor.number →
    (descriptor ∈ child.descriptors ↔
      descriptor ∈ parsed.descriptors ∧ child.Owns descriptor.number)

/-- A child is launched by the execution of a command. -/
def LaunchedBy (environment : Environment) (command : Command) (start : Shell) (child : Child) :
    Prop :=
  Ends (fun finish => ∃ events, finish.control.trace = start.control.trace ++ events ∧
    .child child ∈ events) start (executeCommand environment command)

/-- A child is launched by the execution of the command at `index`. -/
inductive Launches (environment : Environment) :
    List (Option Command) → Shell → Nat → Child → Prop where
  | now {command : Command} {later : List (Option Command)} {start : Shell} {child : Child} :
      LaunchedBy environment command (start.recording (.command command later)) child →
      Launches environment (some command :: later) start 0 child
  | later {command : Command} {later : List (Option Command)} {start middle : Shell}
      {result : CommandResult} {index : Nat} {child : Child} :
      executeCommand environment command (start.recording (.command command later)) =
        .ok result middle →
      Launches environment later middle index child →
      Launches environment (some command :: later) start (index + 1) child

/-- Before the execution of some commands, of the pipes of their line those of these
commands are open. -/
structure Pending (first : Nat) (parsed kernel : Kernel) (commands : List Command) : Prop where
  opened : Opened parsed.pipes kernel
  sound : ∀ command ∈ commands, command.Sound
  distinct : ∀ command ∈ commands, (pipeNumbers command.openPipes).Nodup
  apart : commands.Pairwise fun before after =>
    ∀ number, before.Claims number → number ∉ pipeNumbers after.openPipes
  ends : ∀ descriptor serial, descriptor.IsEnd serial → first ≤ serial → serial < parsed.pipes →
    (descriptor ∈ kernel.descriptors ↔ descriptor ∈ parsed.descriptors ∧
      ∃ command ∈ commands, descriptor.number ∈ pipeNumbers command.openPipes)
  made : ∀ command ∈ commands, ∀ number ∈ pipeNumbers command.openPipes,
    ∃ descriptor ∈ parsed.descriptors, ∃ serial, descriptor.IsEnd serial ∧ first ≤ serial ∧
      serial < parsed.pipes ∧ descriptor.number = number

theorem LineOpened.pending {first : Nat} {kernel : Kernel} {commands : List Command}
    (opened : LineOpened first kernel commands) : Pending first kernel kernel commands := by
  constructor
  case opened => exact ⟨opened.valid, Nat.le_refl _⟩
  case sound => exact opened.sound
  case distinct => exact opened.distinct
  case apart => exact opened.apart
  case ends =>
    exact fun descriptor serial own late _ =>
      (and_iff_left_of_imp fun member => opened.ends descriptor member serial own late).symm
  case made =>
    intro command member number inside
    obtain ⟨descriptor, present, serial, own, late, same⟩ :=
      opened.made command member number inside
    exact ⟨descriptor, present, serial, own, late,
      opened.valid.serials descriptor present serial own,
      same⟩

theorem Pending.executed {first : Nat} {parsed : Kernel} {command : Command}
    {later : List Command} {start finish : Shell}
    (pending : Pending first parsed start.parser.kernel (command :: later))
    (executed : Executed command parsed.pipes start finish) :
    Pending first parsed finish.parser.kernel later := by
  obtain ⟨apart, rest⟩ := List.pairwise_cons.mp pending.apart
  constructor
  case opened => exact executed.opened
  case sound => exact fun other member => pending.sound other (.tail _ member)
  case distinct => exact fun other member => pending.distinct other (.tail _ member)
  case apart => exact rest
  case ends =>
    intro descriptor serial own late early
    rw [executed.ends descriptor serial own early, pending.ends descriptor serial own late early,
      and_assoc]
    refine and_congr_right fun _ => ?_
    constructor
    · rintro ⟨⟨other, member, pipe⟩, free⟩
      cases List.mem_cons.mp member with
      | inl same =>
          subst same
          exact absurd (.inl pipe) free
      | inr inside => exact ⟨other, inside, pipe⟩
    · rintro ⟨other, member, pipe⟩
      exact ⟨⟨other, .tail _ member, pipe⟩, fun claims => apart other member _ claims pipe⟩
  case made => exact fun other member => pending.made other (.tail _ member)

/-- The ends of pipes with distinct numbers. -/
theorem pipe_unique {pipes : List (Int × Int)} (distinct : (pipeNumbers pipes).Nodup)
    {index other : Nat} {pipe pipe' : Int × Int} (entry : pipes[index]? = some pipe)
    (entry' : pipes[other]? = some pipe') :
    pipe.1 ≠ pipe'.2 ∧ (pipe.1 = pipe'.1 ∨ pipe.2 = pipe'.2 → index = other) := by
  rw [pipeNumbers, List.nodup_flatMap] at distinct
  obtain ⟨own, others⟩ := distinct
  rw [List.pairwise_iff_getElem] at others
  obtain ⟨inside, rfl⟩ := List.getElem?_eq_some_iff.mp entry
  obtain ⟨inside', rfl⟩ := List.getElem?_eq_some_iff.mp entry'
  rcases Nat.lt_trichotomy index other with before | rfl | after
  · have apart := others index other inside inside' before
    simp [Function.onFun] at apart
    omega
  · have apart := own pipes[index] (List.getElem_mem inside)
    simp at apart
    exact ⟨apart, fun _ => rfl⟩
  · have apart := others other index inside' inside after
    simp [Function.onFun] at apart
    omega

/-- Among the ends of its own pipes a child keeps those of its call. -/
theorem Child.keeps_iff {child : Child}
    (distinct : (pipeNumbers child.command.openPipes).Nodup) {number : Int}
    (inside : number ∈ pipeNumbers child.command.openPipes) :
    child.Keeps number ↔ child.Owns number := by
  constructor
  · intro keeps
    obtain ⟨pipe, member, ends⟩ := mem_pipeNumbers.mp inside
    obtain ⟨index, entry⟩ := List.mem_iff_getElem?.mp member
    refine ⟨index, pipe, entry, ends.imp (fun same => ?_) fun same => ?_⟩
    · exact ⟨same, keeps.reading index pipe entry same⟩
    · exact ⟨same, keeps.writing index pipe entry same⟩
  · rintro ⟨index, pipe, entry, ⟨rfl, own⟩ | ⟨rfl, own⟩⟩
    · refine ⟨fun other pipe' entry' same => ?_, fun other pipe' entry' same => ?_⟩
      · exact (pipe_unique distinct entry entry').2 (.inl same.symm) ▸ own
      · exact absurd same.symm (pipe_unique distinct entry entry').1
    · refine ⟨fun other pipe' entry' same => ?_, fun other pipe' entry' same => ?_⟩
      · exact absurd same (pipe_unique distinct entry' entry).1
      · exact (pipe_unique distinct entry entry').2 (.inr same.symm) ▸ own

/-- A child of the first of the commands has its own ends and those of the others. -/
theorem Pending.holdsOwnEnds_iff {first : Nat} {parsed kernel : Kernel} {command : Command}
    {later : List Command} {child : Child}
    (pending : Pending first parsed kernel (command :: later))
    (inherits : child.Inherits command parsed.pipes kernel) :
    HoldsOwnEnds first parsed child ↔ ∀ other ∈ later, other.openPipes = [] := by
  obtain ⟨apart, _⟩ := List.pairwise_cons.mp pending.apart
  have named := inherits.command
  constructor
  · intro holds other member
    by_contra pipes
    obtain ⟨pipe, listed⟩ := List.exists_mem_of_ne_nil _ pipes
    have inside : pipe.1 ∈ pipeNumbers other.openPipes :=
      mem_pipeNumbers.mpr ⟨pipe, listed, .inl rfl⟩
    have above := (pending.sound other (.tail _ member)).above _ inside
    obtain ⟨descriptor, present, serial, own, late, early, same⟩ :=
      pending.made other (.tail _ member) _ inside
    rw [← same] at inside above
    have foreign : descriptor.number ∉ pipeNumbers child.command.openPipes := fun pipe =>
      apart other member _ (.inl (named ▸ pipe)) inside
    have open' := (pending.ends descriptor serial own late early).mpr
      ⟨present, other, .tail _ member, inside⟩
    have keeps : child.Keeps descriptor.number := by
      refine ⟨fun index pipe entry same => ?_, fun index pipe entry same => ?_⟩
      · exact absurd (mem_pipeNumbers.mpr ⟨pipe, List.mem_of_getElem? entry, .inl same⟩) foreign
      · exact absurd (mem_pipeNumbers.mpr ⟨pipe, List.mem_of_getElem? entry, .inr same⟩) foreign
    have held := (inherits.ends descriptor serial own early above).mpr ⟨open', keeps⟩
    obtain ⟨_, index, pipe, entry, owns⟩ :=
      (holds descriptor serial own late early above).mp held
    refine foreign (mem_pipeNumbers.mpr ⟨pipe, List.mem_of_getElem? entry, ?_⟩)
    exact owns.imp And.left And.left
  · intro none descriptor serial own late early above
    have distinct := pending.distinct command (.head _)
    rw [← named] at distinct
    rw [inherits.ends descriptor serial own early above,
      pending.ends descriptor serial own late early, and_assoc]
    refine and_congr_right fun _ => ?_
    constructor
    · rintro ⟨⟨other, member, pipe⟩, keeps⟩
      cases List.mem_cons.mp member with
      | inl same =>
          subst same
          exact (Child.keeps_iff distinct (named.symm ▸ pipe)).mp keeps
      | inr after =>
          rw [none other after] at pipe
          cases pipe
    · intro owns
      obtain ⟨index, pipe, entry, ends⟩ := id owns
      have inside : descriptor.number ∈ pipeNumbers child.command.openPipes :=
        mem_pipeNumbers.mpr ⟨pipe, List.mem_of_getElem? entry, ends.imp And.left And.left⟩
      exact ⟨⟨command, .head _, named ▸ inside⟩, (Child.keeps_iff distinct inside).mpr owns⟩

theorem Pending.opening {first : Nat} {parsed kernel : Kernel} {command : Command}
    {later : List Command} (pending : Pending first parsed kernel (command :: later)) :
    Opened parsed.pipes kernel ∧ command.Sound :=
  ⟨pending.opened, pending.sound command (.head _)⟩

theorem Pending.step {environment : Environment} {first : Nat} {parsed : Kernel}
    {command : Command} {later : List Command} {start finish : Shell} {event : Event}
    {result : CommandResult} (pending : Pending first parsed start.parser.kernel (command :: later))
    (ran : executeCommand environment command (start.recording event) = .ok result finish) :
    Pending first parsed finish.parser.kernel later := by
  have begun : Pending first parsed (start.recording event).parser.kernel (command :: later) :=
    pending
  obtain ⟨opened, sound⟩ := begun.opening
  exact begun.executed (executeCommand_executed opened sound ran)

/-- A child that a command launches has inherited its ends from the shell. -/
theorem LaunchedBy.inherits {environment : Environment} {command : Command} {bound : Nat}
    {start : Shell} {child : Child} (launched : LaunchedBy environment command start child)
    (opened : Opened bound start.parser.kernel) (sound : command.Sound) :
    child.Inherits command bound start.parser.kernel := by
  obtain ⟨events, same, member⟩ := launched
  obtain ⟨events', same', inherit⟩ := executeCommand_bequeaths opened sound
  have equal : events = events' := List.append_cancel_left (same.symm.trans same')
  exact inherit _ (equal ▸ member)

theorem Launches.holdsOwnEnds_iff {environment : Environment} {first : Nat} {parsed : Kernel}
    {child : Child} {entries : List (Option Command)} {start : Shell} {index : Nat}
    (launches : Launches environment entries start index child) :
    ∀ {commands : List Command}, entries = commands.map some →
      Pending first parsed start.parser.kernel commands →
      (HoldsOwnEnds first parsed child ↔
        ∀ other ∈ commands.drop (index + 1), other.openPipes = []) := by
  induction launches with
  | now launched =>
      rintro (_ | ⟨command, later⟩) same pending
      · cases same
      · cases same
        obtain ⟨opened, sound⟩ := pending.opening
        exact pending.holdsOwnEnds_iff (launched.inherits opened sound)
  | later ran _ ih =>
      rintro (_ | ⟨command, later⟩) same pending
      · cases same
      · cases same
        rw [List.drop_succ_cons]
        exact ih rfl (pending.step ran)

def Event.LaunchedFor (environment : Environment) (entries : List (Option Command))
    (start : Shell) : Event → Prop
  | .child launched => ∃ index, Launches environment entries start index launched
  | _ => True

theorem Event.LaunchedFor.later {environment : Environment} {command : Command}
    {later : List (Option Command)} {start middle : Shell} {result : CommandResult}
    (ran : executeCommand environment command (start.recording (.command command later)) =
      .ok result middle) {event : Event} (launched : event.LaunchedFor environment later middle) :
    event.LaunchedFor environment (some command :: later) start := by
  cases event with
  | child launch =>
      obtain ⟨index, launches⟩ := launched
      exact ⟨index + 1, .later ran launches⟩
  | _ => trivial

/-- The execution of a command keeps the table of descriptors valid. -/
theorem Opened.step {environment : Environment} {bound : Nat} {command : Command}
    {start finish : Shell} {event : Event} {result : CommandResult}
    (opened : Opened bound start.parser.kernel) (sound : command.Sound)
    (ran : executeCommand environment command (start.recording event) = .ok result finish) :
    Opened bound finish.parser.kernel := by
  have begun : Opened bound (start.recording event).parser.kernel := opened
  exact (executeCommand_executed begun sound ran).opened

/-- Every child that the execution of a line launches is launched by one of its commands. -/
theorem executeCommands_launches {environment : Environment} {bound : Nat}
    (commands : List Command) : ∀ {start : Shell},
      Opened bound start.parser.kernel → (∀ command ∈ commands, command.Sound) →
      Ends (fun finish => Recorded (Event.LaunchedFor environment (commands.map some) start)
        start.control.trace finish.control.trace) start
        (executeCommands environment (commands.map some)) := by
  induction commands with
  | nil => exact fun _ _ => refl_of (Recorded _) _
  | cons command later ih =>
      intro start opened each
      have sound := each command (.head _)
      let begun := start.recording (.command command (later.map some))
      have named : Recorded (Event.LaunchedFor environment ((command :: later).map some) start)
          start.control.trace begun.control.trace := .single _ trivial
      have launched : Ends (fun state =>
          Recorded (Event.LaunchedFor environment ((command :: later).map some) start)
            start.control.trace state.control.trace) begun (executeCommand environment command) := by
        obtain ⟨events, same, _⟩ : Bequeaths command bound begun _ :=
          executeCommand_bequeaths opened sound
        refine trans_of (Recorded _) named ⟨events, same, fun event member => ?_⟩
        cases event with
        | child child => exact ⟨0, .now ⟨events, same, member⟩⟩
        | _ => trivial
      refine Ends.bind (fun _ _ ran => ?_) fun _ state ran => ?_
      · cases ran
      · cases ran
        refine Ends.bind (fun _ _ ran => launched.of_error ran) fun result middle ran => ?_
        have rest := ih (opened.step sound ran) fun other member => each other (.tail _ member)
        exact trans_of (Recorded _) (launched.of_ok ran)
          (rest.mono fun _ => Event.LaunchedFor.later ran)

/-! ## Lines read by the prompt -/

theorem SamePipes.drop_iff {segments : List CString} {commands : List Command}
    (same : SamePipes (segments.take commands.length) commands) (index : Nat) :
    (∀ other ∈ commands.drop (index + 1), other.openPipes = []) ↔
      ∀ later, index < later → later < commands.length →
        ∀ segment ∈ segments[later]?, Unpiped segment := by
  obtain ⟨_, each⟩ := List.forall₂_iff_get.mp same
  have entry : ∀ {later : Nat} {segment : CString} (inside : later < commands.length),
      segments[later]? = some segment → (Unpiped segment ↔ commands[later].openPipes = []) := by
    intro later segment inside found
    obtain ⟨bound, rfl⟩ := List.getElem?_eq_some_iff.mp found
    have taken : later < (segments.take commands.length).length := by
      rw [List.length_take]
      omega
    have related := each later taken inside
    rwa [List.get_eq_getElem, List.getElem_take] at related
  constructor
  · intro none later after inside segment found
    refine (entry inside found).mpr (none _ ?_)
    rw [List.mem_iff_getElem?]
    refine ⟨later - (index + 1), ?_⟩
    rw [List.getElem?_drop, Nat.add_sub_cancel' after, List.getElem?_eq_getElem inside]
  · intro unpiped other member
    obtain ⟨offset, found⟩ := List.mem_iff_getElem?.mp member
    rw [List.getElem?_drop] at found
    obtain ⟨inside, rfl⟩ := List.getElem?_eq_some_iff.mp found
    have taken : index + 1 + offset < segments.length := by
      have length := same.length_eq
      rw [List.length_take] at length
      omega
    have segment := List.getElem?_eq_getElem taken
    exact (entry inside segment).mp (unpiped _ (by omega) inside _ segment)

theorem readLine_parsed {environment : Environment} {line : CString} {start parsed : Shell}
    {commands : Option (List (Option Command))}
    (read : readLine environment line start = .ok commands parsed) :
    commands = (parseReadLine environment.files line start.parser start.lastExitCode).commands ∧
      parsed.parser =
        (parseReadLine environment.files line start.parser start.lastExitCode).parser := by
  obtain ⟨_, _, entered, read⟩ := bind_eq_ok.mp read
  cases entered
  obtain ⟨_, _, recorded, read⟩ := bind_eq_ok.mp read
  cases recorded
  cases read
  exact ⟨rfl, rfl⟩

theorem foldl_parseSegment_valid {outcomes : FileOutcomes} {total : Nat} {last : Int}
    (segments : List CString) : ∀ {loop : LineLoop}, loop.parser.kernel.Valid →
      (segments.foldl (parseSegment outcomes total last) loop).parser.kernel.Valid := by
  induction segments with
  | nil => exact id
  | cons segment segments ih =>
      intro loop valid
      have next := @parseCommand_valid outcomes segment _ valid
      refine ih ?_
      unfold parseSegment
      split
      · exact valid
      · split
        next parsed =>
          rw [parsed] at next
          dsimp only
          split <;> exact next
        next parsed =>
          rw [parsed] at next
          exact next

theorem readLine_valid {environment : Environment} {line : CString} {start parsed : Shell}
    {commands : Option (List (Option Command))} (valid : start.parser.kernel.Valid)
    (read : readLine environment line start = .ok commands parsed) :
    parsed.parser.kernel.Valid := by
  rw [(readLine_parsed read).2]
  unfold parseReadLine
  split
  · exact valid
  · dsimp only
    split
    · exact valid
    · exact foldl_parseSegment_valid _ valid

theorem readLine_opened {environment : Environment} {line : CString} {start parsed : Shell}
    {commands : List (Option Command)} (valid : start.parser.kernel.Valid)
    (read : readLine environment line start = .ok (some commands) parsed) :
    ∃ accepted : List Command, commands = accepted.map some ∧
      Opened parsed.parser.kernel.pipes parsed.parser.kernel ∧
      ∀ command ∈ accepted, command.Sound := by
  obtain ⟨accepted, shape, sound, _⟩ :=
    parseReadLine_opened valid (readLine_parsed read).1.symm
  exact ⟨accepted, shape, ⟨readLine_valid valid read, Nat.le_refl _⟩, sound⟩

theorem readLine_pending {environment : Environment} {line : CString} {start parsed : Shell}
    {commands : List (Option Command)} (valid : start.parser.kernel.Valid)
    (intact : LineIntact environment.files line start.parser)
    (read : readLine environment line start = .ok (some commands) parsed) :
    ∃ accepted : List Command, commands = accepted.map some ∧
      Pending start.parser.kernel.pipes parsed.parser.kernel parsed.parser.kernel accepted ∧
      SamePipes ((segments line).take accepted.length) accepted := by
  obtain ⟨returned, parser⟩ := readLine_parsed read
  obtain ⟨accepted, shape, _, opened, same⟩ := parseReadLine_opened valid returned.symm
  exact ⟨accepted, shape, parser ▸ (opened intact).pending, same⟩

/-! ## Lines of a run -/

theorem executeCommands_valid {environment : Environment} {bound : Nat}
    (commands : List Command) : ∀ {start finish : Shell},
      Opened bound start.parser.kernel → (∀ command ∈ commands, command.Sound) →
      executeCommands environment (commands.map some) start = .ok ⟨⟩ finish →
      finish.parser.kernel.Valid := by
  induction commands with
  | nil =>
      rintro _ _ opened _ ⟨⟩
      exact opened.valid
  | cons command later ih =>
      intro start finish opened sound ran
      obtain ⟨_, _, recorded, ran⟩ := bind_eq_ok.mp ran
      cases recorded
      obtain ⟨result, middle, executed, ran⟩ := bind_eq_ok.mp ran
      refine ih ?_ (fun other member => sound other (.tail _ member)) ran
      exact opened.step (sound command (.head _)) executed

theorem promptTurn_valid {environment : Environment} {input : Option CString}
    {start finish : Shell} (valid : start.parser.kernel.Valid)
    (ran : promptTurn environment input start = .ok ⟨⟩ finish) : finish.parser.kernel.Valid := by
  obtain ⟨_, updated, update, ran⟩ := bind_eq_ok.mp ran
  obtain ⟨text, prompted, shown, ran⟩ := bind_eq_ok.mp ran
  obtain ⟨_, recorded, record, ran⟩ := bind_eq_ok.mp ran
  obtain ⟨commands, read, reads, ran⟩ := bind_eq_ok.mp ran
  have same : recorded.parser = start.parser :=
    calc
      recorded.parser = prompted.parser := (liftJob_keepsParser _ prompted).of_ok record
      _ = updated.parser := ((getPromptString_moves environment updated).of_ok shown).parser
      _ = start.parser := (liftJob_keepsParser _ start).of_ok update
  rw [← same] at valid
  cases commands with
  | none =>
      cases ran
      exact readLine_valid valid reads
  | some commands =>
      obtain ⟨accepted, rfl, opened, sound⟩ := readLine_opened valid reads
      exact executeCommands_valid accepted opened sound ran

/-- The table of descriptors is valid whenever the shell is about to read a line. -/
theorem prompt_valid {environment : Environment} {cwd : CString} {finish : Shell}
    (inputs : List (Option CString))
    (ran : prompt environment inputs (initInternals cwd) = .ok ⟨⟩ finish) :
    finish.parser.kernel.Valid := by
  have kept : ∀ {start : Shell}, start.parser.kernel.Valid →
      prompt environment inputs start = .ok ⟨⟩ finish → finish.parser.kernel.Valid := by
    clear ran
    induction inputs with
    | nil =>
        rintro _ valid ⟨⟩
        exact valid
    | cons input rest ih =>
        intro start valid ran
        unfold prompt at ran
        obtain ⟨_, _, got, ran⟩ := bind_eq_ok.mp ran
        cases got
        split at ran
        · cases ran
          exact valid
        · obtain ⟨_, middle, turn, ran⟩ := bind_eq_ok.mp ran
          exact ih (promptTurn_valid valid turn) ran
  exact kept valid_startedShell ran

/-- Whether the event is the launch of a child with the property. -/
def Event.launches (check : Child → Bool) : Event → Bool
  | .child launched => check launched
  | _ => false

/-- A child of a line is found in the events of its execution. -/
theorem exists_launched {environment : Environment} {line : CString} {start : Shell}
    (valid : start.parser.kernel.Valid) {check : Kernel → Child → Bool}
    (found : returns (fun commands (parsed : Shell) => commands.any fun commands =>
        parsed.control.trace.all (fun event => !event.launches fun _ => true) &&
          (finalState (executeCommands environment commands parsed)).control.trace.any
            (Event.launches (check parsed.parser.kernel)))
      (readLine environment line start) = true) :
    ∃ commands parsed index child, readLine environment line start = .ok (some commands) parsed ∧
      Launches environment commands parsed index child ∧
      check parsed.parser.kernel child = true := by
  obtain ⟨commands, parsed, read, found⟩ := exists_of_returns found
  obtain ⟨commands, rfl, found⟩ := (Option.any_eq_true _ _).mp found
  obtain ⟨childless, found⟩ := Bool.and_eq_true_iff.mp found
  obtain ⟨accepted, rfl, opened, sound⟩ := readLine_opened valid read
  obtain ⟨events, same, launched⟩ := @executeCommands_launches environment _ accepted _ opened sound
  obtain ⟨event, member, checked⟩ := List.any_eq_true.mp found
  cases event with
  | child child =>
      rw [same, List.mem_append] at member
      rcases member with old | new
      · cases List.all_eq_true.mp childless _ old
      · obtain ⟨index, launches⟩ := launched _ new
        exact ⟨_, parsed, index, child, read, launches, checked⟩
  | _ => cases checked

/-- Every child that is launched while a line is executed is launched by one of its
commands. When no freed call is read while the line is parsed, it has exactly its own ends
of the line's pipes unless a command after this one has pipes. -/
theorem line_children_hold_own_ends_iff {environment : Environment} {line : CString}
    {start parsed : Shell} {commands : List (Option Command)}
    (valid : start.parser.kernel.Valid)
    (read : readLine environment line start = .ok (some commands) parsed) :
    Ends (fun finish => Recorded (Event.LaunchedFor environment commands parsed)
        parsed.control.trace finish.control.trace) parsed
        (executeCommands environment commands) ∧
      (LineIntact environment.files line start.parser →
        ∀ index child, Launches environment commands parsed index child →
          (HoldsOwnEnds start.parser.kernel.pipes parsed.parser.kernel child ↔
            ∀ later, index < later → later < commands.length →
              ∀ segment ∈ (segments line)[later]?, Unpiped segment)) := by
  constructor
  · obtain ⟨accepted, rfl, opened, sound⟩ := readLine_opened valid read
    exact executeCommands_launches accepted opened sound
  · intro intact index child launches
    obtain ⟨accepted, rfl, pending, same⟩ := readLine_pending valid intact read
    rw [launches.holdsOwnEnds_iff rfl pending, same.drop_iff index, List.length_map]

/-- No command after `a | b` has a pipe. -/
theorem pipeline_holds_own_ends :
    ∃ commands parsed index child,
      readLine .exiting "a | b & sleep 1".toList (initInternals "/".toList) =
        .ok (some commands) parsed ∧
      Launches .exiting commands parsed index child ∧ child.call.name = "a".toList ∧
      child.Owns 4 ∧ HoldsOwnEnds startedShell.kernel.pipes parsed.parser.kernel child := by
  have valid : (initInternals "/".toList).parser.kernel.Valid := valid_startedShell
  obtain ⟨commands, parsed, index, child, read, launches, checked⟩ :=
    @exists_launched .exiting "a | b & sleep 1".toList _ valid
      (fun _ child => decide (child.call.name = "a".toList ∧
        child.command.openPipes[0]? = some (3, 4) ∧ 0 ∈ child.call.writingPipes))
      (by decide +kernel)
  obtain ⟨name, pipe, writes⟩ := of_decide_eq_true checked
  refine ⟨commands, parsed, index, child, read, launches, name,
    ⟨0, _, pipe, .inr ⟨rfl, writes⟩⟩, ?_⟩
  have intact : LineIntact Environment.exiting.files "a | b & sleep 1".toList startedShell :=
    lineIntact_of_lastExitCode (by decide +kernel)
  refine ((line_children_hold_own_ends_iff valid read).2 intact index child launches).mpr ?_
  intro later after _ segment found
  have split : segments "a | b & sleep 1".toList = ["a | b ".toList, " sleep 1".toList] := by
    decide +kernel
  rw [split] at found
  match later, after with
  | 1, _ =>
      cases found
      unfold Unpiped
      decide +kernel
  | later + 2, _ => cases found

/-- `sleep` has the pipe of the next command. -/
theorem sleep_holds_later_pipe :
    ∃ commands parsed index child,
      readLine .exiting "sleep 1 & a | b".toList (initInternals "/".toList) =
        .ok (some commands) parsed ∧
      Launches .exiting commands parsed index child ∧ child.call.name = "sleep".toList ∧
      ¬ HoldsOwnEnds startedShell.kernel.pipes parsed.parser.kernel child := by
  have valid : (initInternals "/".toList).parser.kernel.Valid := valid_startedShell
  obtain ⟨commands, parsed, index, child, read, launches, checked⟩ :=
    @exists_launched .exiting "sleep 1 & a | b".toList _ valid
      (fun parsed child => decide (child.call.name = "sleep".toList ∧
        child.command.openPipes = [] ∧ 0 < parsed.pipes ∧
        ⟨3, .pipeRead 0⟩ ∈ child.descriptors)) (by decide +kernel)
  obtain ⟨name, none, made, held⟩ := of_decide_eq_true checked
  refine ⟨commands, parsed, index, child, read, launches, name, fun holds => ?_⟩
  obtain ⟨_, position, pipe, entry, _⟩ :=
    (holds ⟨3, .pipeRead 0⟩ 0 (.inl rfl) (Nat.zero_le _) made (by decide)).mp held
  rw [none] at entry
  cases entry

end Jsh
