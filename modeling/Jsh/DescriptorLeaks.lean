import Jsh.JobGroups
import Jsh.RejectedLines
import Jsh.Streams

/-!
# Descriptors between lines

What is open in the shell whenever it is about to read a line: the descriptors it has been
started with, and those that rejected lines have left open, as long as `pipe`, `fork` and
the handshakes succeed.
-/

set_option autoImplicit false

namespace Jsh

open Library

/-! ## Executing a command -/

/-- The system calls of a launch succeed. -/
structure Environment.Launching (environment : Environment) : Prop where
  pipes : ∀ serial, environment.files.pipeSucceeds serial = true
  forks : ∀ call, environment.fork call ≠ none
  handshakes : ∀ call, environment.handshake call = true

theorem launching_exiting : Environment.exiting.Launching where
  pipes _ := rfl
  forks _ := Option.some_ne_none _
  handshakes _ := rfl

/-- Nothing is open that has not been open before. -/
def Shrinks (kernel kernel' : Kernel) : Prop :=
  ∀ descriptor ∈ kernel'.descriptors, descriptor ∈ kernel.descriptors

section Execution

variable {environment : Environment} {command : Command}

/-- A launch leaves the table as it is, and closes the handshake pipes. -/
theorem forkCall_launches (launching : environment.Launching) {call : CommandCall} {job : Job}
    {result : Option InternalExitInfo × Job} {fd fd2 : Int × Int} {start finish : Shell}
    (ran : forkCall environment command call job fd fd2 start = .ok result finish) :
    result.1.isSome = true ∧ finish.control.table = start.control.table ∧
      finish.parser.kernel =
        (((start.parser.kernel.close fd.1).close fd2.2).close fd.2).close fd2.1 := by
  obtain ⟨forked, state, fork, ran⟩ := bind_eq_ok.mp ran
  cases fork
  cases pid : environment.fork start.control.calls with
  | none => exact absurd pid (launching.forks _)
  | some pid' =>
      rw [pid] at ran
      obtain ⟨_, _, got, ran⟩ := bind_eq_ok.mp ran
      cases got
      obtain ⟨_, _, recorded, ran⟩ := bind_eq_ok.mp ran
      cases recorded
      obtain ⟨_, _, closed, ran⟩ := bind_eq_ok.mp ran
      cases closed
      obtain ⟨told, _, write, ran⟩ := bind_eq_ok.mp ran
      cases write
      rw [if_neg (by simp [launching.handshakes])] at ran
      obtain ⟨_, _, closed, ran⟩ := bind_eq_ok.mp ran
      cases closed
      obtain ⟨answered, _, read, ran⟩ := bind_eq_ok.mp ran
      cases read
      rw [if_neg (by simp [launching.handshakes])] at ran
      obtain ⟨_, _, closed, ran⟩ := bind_eq_ok.mp ran
      cases closed
      cases ran
      exact ⟨rfl, rfl, rfl⟩

theorem forkCall_closes (launching : environment.Launching) {call : CommandCall} {job : Job}
    {result : Option InternalExitInfo × Job} {fd fd2 : Int × Int} {start finish : Shell}
    (ran : forkCall environment command call job fd fd2 start = .ok result finish)
    {descriptor : Descriptor} (opened : descriptor ∈ finish.parser.kernel.descriptors) :
    descriptor ∈ start.parser.kernel.descriptors ∧
      descriptor.number ∉ [fd.1, fd.2, fd2.1, fd2.2] := by
  rw [(forkCall_launches launching ran).2.2] at opened
  simp only [Kernel.mem_close] at opened
  simp only [List.mem_cons, List.not_mem_nil, or_false, not_or]
  tauto

theorem pipe_opens (launching : environment.Launching) {start finish : Shell}
    {result : Option (Int × Int)} (ran : pipe environment start = .ok result finish) :
    finish.control = start.control ∧ ∃ fd, result = some fd ∧
      ∀ descriptor ∈ finish.parser.kernel.descriptors,
        descriptor.number ≠ fd.1 → descriptor.number ≠ fd.2 →
          descriptor ∈ start.parser.kernel.descriptors := by
  have made : start.parser.kernel.pipe environment.files = (result, finish.parser.kernel) := by
    injection ran with value state
    rw [← state]
    exact Prod.ext value rfl
  have control : finish.control = start.control := by
    injection ran with _ state
    rw [← state]
  refine ⟨control, ?_⟩
  cases result with
  | none =>
      have failed := (Kernel.pipe_none made).1
      rw [launching.pipes] at failed
      cases failed
  | some fd =>
      refine ⟨fd, rfl, fun descriptor opened first second => ?_⟩
      obtain ⟨_, _, _, kernel⟩ := Kernel.pipe_some made
      rw [kernel, List.mem_cons, List.mem_cons] at opened
      rcases opened with rfl | rfl | before
      · exact absurd rfl second
      · exact absurd rfl first
      · exact before

theorem executeInternalCommand_sameParser {call : CommandCall} {exitCode : Int}
    {start finish : Shell} (ran : executeInternalCommand environment call start =
      .ok exitCode finish) : finish.parser = start.parser := by
  rcases executeInternalCommand_ok ran with calm | ⟨_, left⟩
  · exact calm.parser
  · exact left.parser

theorem executeSingleCommand_launches (launching : environment.Launching) {call : CommandCall}
    {job : Job} {result : Option InternalExitInfo × Job} {start finish : Shell}
    (ran : executeSingleCommand environment command call job start = .ok result finish) :
    result.1.isSome = true ∧
      (isInternalCommand call = false → finish.control.table = start.control.table) := by
  unfold executeSingleCommand at ran
  split at ran
  · next internal =>
    obtain ⟨exitCode, state, executed, ran⟩ := bind_eq_ok.mp ran
    cases ran
    refine ⟨rfl, fun external => ?_⟩
    rw [internal] at external
    cases external
  · obtain ⟨_, _, recorded, ran⟩ := bind_eq_ok.mp ran
    cases recorded
    obtain ⟨_, piped, made, ran⟩ := bind_eq_ok.mp ran
    obtain ⟨same, fd, rfl, _⟩ := pipe_opens launching made
    obtain ⟨_, both, made', ran⟩ := bind_eq_ok.mp ran
    obtain ⟨same', fd2, rfl, _⟩ := pipe_opens launching made'
    obtain ⟨launched, table, _⟩ := forkCall_launches launching ran
    rw [table, same', same]
    exact ⟨launched, fun _ => rfl⟩

theorem executeSingleCommand_closes (launching : environment.Launching) {call : CommandCall}
    {job : Job} {result : Option InternalExitInfo × Job} {start finish : Shell}
    (ran : executeSingleCommand environment command call job start = .ok result finish) :
    Shrinks start.parser.kernel finish.parser.kernel := by
  unfold executeSingleCommand at ran
  split at ran
  · obtain ⟨exitCode, state, executed, ran⟩ := bind_eq_ok.mp ran
    cases ran
    rw [executeInternalCommand_sameParser executed]
    exact fun _ member => member
  · obtain ⟨_, _, recorded, ran⟩ := bind_eq_ok.mp ran
    cases recorded
    obtain ⟨_, piped, made, ran⟩ := bind_eq_ok.mp ran
    obtain ⟨_, fd, rfl, before⟩ := pipe_opens launching made
    obtain ⟨_, both, made', ran⟩ := bind_eq_ok.mp ran
    obtain ⟨_, fd2, rfl, before'⟩ := pipe_opens launching made'
    intro descriptor opened
    obtain ⟨kept, apart⟩ := forkCall_closes launching ran opened
    simp only [List.mem_cons, List.not_mem_nil, or_false, not_or] at apart
    obtain ⟨first, second, third, fourth⟩ := apart
    exact before descriptor (before' descriptor kept third fourth) first second

theorem executeCalls_closes (launching : environment.Launching) (calls : List CommandCall) :
    ∀ {index : Nat} {info : Option InternalExitInfo} {job : Job}
      {result : Option InternalExitInfo × Job} {start finish : Shell},
      executeCalls environment command index info job calls start = .ok result finish →
      Shrinks start.parser.kernel finish.parser.kernel := by
  induction calls with
  | nil =>
      intro index info job result start finish ran
      cases ran
      exact fun _ member => member
  | cons call rest ih =>
      intro index info job result start finish ran
      obtain ⟨⟨launched, job'⟩, middle, single, ran⟩ := bind_eq_ok.mp ran
      have own := executeSingleCommand_closes launching single
      obtain ⟨some, _⟩ := executeSingleCommand_launches launching single
      obtain ⟨info', rfl⟩ := Option.isSome_iff_exists.mp some
      exact fun descriptor opened => own descriptor (ih ran descriptor opened)

/-- After a command nothing is open that it claims. -/
theorem executeCommand_shrinks (launching : environment.Launching) (sound : command.Sound)
    {result : CommandResult} {start finish : Shell}
    (ran : executeCommand environment command start = .ok result finish) :
    ∀ descriptor ∈ finish.parser.kernel.descriptors,
      descriptor ∈ start.parser.kernel.descriptors ∧ ¬ command.Claims descriptor.number := by
  obtain ⟨result', executed, runs, ran⟩ := bind_eq_ok.mp ran
  cases ran
  intro descriptor opened
  obtain ⟨kept, spared⟩ := mem_closeUnusedFileDescriptors.mp opened
  have pipes : descriptor ∈ start.parser.kernel.descriptors ∧
      descriptor.number ∉ pipeNumbers command.openPipes := by
    rcases runCommand_eq environment command with ⟨call, one, _, same⟩ | ⟨_, same⟩
    · rw [same] at runs
      obtain ⟨_, _, internal, runs⟩ := bind_eq_ok.mp runs
      cases runs
      rw [executeInternalCommand_sameParser internal] at kept
      exact ⟨kept, by simp [sound.single call one, pipeNumbers]⟩
    · rw [same] at runs
      obtain ⟨kernel, closed⟩ := executeExternalCommand_closed runs
      have free : descriptor.number ∉ pipeNumbers command.openPipes := by
        rw [closed] at kept
        exact (mem_closePipes.mp kept).2
      rcases executeExternalCommand_sheds environment command start with
        ⟨halt, state, _, failed⟩ | ⟨result, launched, launch, sheds⟩
      · rw [failed] at runs
        cases runs
      · have before := (sheds.of_ok runs).fewer descriptor kept
        exact ⟨executeCalls_closes launching command.commandCalls launch descriptor before, free⟩
  exact ⟨pipes.1, fun claims => claims.elim pipes.2 fun file =>
    spared ⟨file.2, file.1, pipes.2⟩⟩

/-- The commands of a line close what has been opened for them. -/
theorem executeCommands_shrinks (launching : environment.Launching) {kernel : Kernel}
    (commands : List Command) : ∀ {start finish : Shell}, (∀ command ∈ commands, command.Sound) →
      (∀ descriptor ∈ start.parser.kernel.descriptors, descriptor ∈ kernel.descriptors ∨
        ∃ command ∈ commands, command.Claims descriptor.number) →
      executeCommands environment (commands.map some) start = .ok ⟨⟩ finish →
      Shrinks kernel finish.parser.kernel := by
  induction commands with
  | nil =>
      intro start finish _ owned ran
      cases ran
      intro descriptor opened
      exact (owned descriptor opened).resolve_right (by simp)
  | cons command later ih =>
      intro start finish sound owned ran
      obtain ⟨_, _, recorded, ran⟩ := bind_eq_ok.mp ran
      cases recorded
      obtain ⟨result, middle, executed, ran⟩ := bind_eq_ok.mp ran
      refine ih (fun other member => sound other (.tail _ member)) ?_ ran
      intro descriptor opened
      obtain ⟨before, free⟩ :=
        executeCommand_shrinks launching (sound command (.head _)) executed descriptor opened
      refine (owned descriptor before).imp_right fun claimed => ?_
      obtain ⟨other, member, claims⟩ := claimed
      cases List.mem_cons.mp member with
      | inl same => exact absurd (same ▸ claims) free
      | inr inside => exact ⟨other, inside, claims⟩

end Execution

/-! ## Reading a line -/

/-- A command claims what has been opened for it. -/
theorem CommandRead.claims {outcomes : FileOutcomes} {segment : CString}
    {state state' : ParserState} {command : Command} {tree : Pipeline Labels.wired}
    (read : CommandRead outcomes segment state state' command tree) {descriptor : Descriptor}
    (new : descriptor ∈ tree.links.flatMap Link.descriptors ++ tree.files) :
    command.Claims descriptor.number := by
  have pipes : descriptor.number ∈ pipeNumbers command.openPipes ↔
      ∃ other ∈ tree.links.flatMap Link.descriptors, other.number = descriptor.number := by
    rw [read.openPipes]
    exact mem_link_descriptors
  by_cases pipe : descriptor.number ∈ pipeNumbers command.openPipes
  · exact .inl pipe
  · have file : descriptor ∈ tree.files :=
      (List.mem_append.mp new).resolve_left fun link => pipe (pipes.mpr ⟨_, link, rfl⟩)
    have above := read.wires.openedAbove descriptor file
    refine .inr ⟨above, ?_⟩
    rw [read.openPipes] at pipe
    rw [(read.perm.flatMap_right _).mem_iff,
      tree.mem_fds_iff above segment (by simp) (by simp) pipe]
    exact List.mem_map_of_mem file

section Reading

variable {environment : Environment} {line : CString} {start parsed : Shell}

/-- Everything that is open after an accepted line has been open before, or is claimed by
one of its commands. -/
theorem readLine_claimed (valid : start.parser.kernel.Valid)
    (intact : LineIntact environment.files line start.parser)
    (pipes : ∀ serial, environment.files.pipeSucceeds serial = true) {commands : List Command}
    (read : readLine environment line start = .ok (some (commands.map some)) parsed) :
    ∀ descriptor ∈ parsed.parser.kernel.descriptors,
      descriptor ∈ start.parser.kernel.descriptors ∨
        ∃ command ∈ commands, command.Claims descriptor.number := by
  obtain ⟨returned, parser⟩ := readLine_parsed read
  rw [parseReadLine_parsed returned.symm] at parser
  obtain ⟨unflagged, accepted⟩ := parseReadLine_accepted returned.symm
  obtain ⟨_, _, _, count, shape, trimmed, whole⟩ := parseReadLine_commands returned.symm
  have upTo : ∀ index ≤ (segments line).length, ∀ descriptor ∈
      (parsedSegments environment.files start.parser
        ((segments line).take index)).kernel.descriptors,
      descriptor ∈ start.parser.kernel.descriptors ∨
        ∃ command ∈ commands, command.Claims descriptor.number := by
    intro index
    induction index with
    | zero => exact fun _ _ member => .inl member
    | succ index ih =>
        intro bound descriptor opened
        have found := List.getElem?_eq_getElem bound
        have before := ih (Nat.le_of_succ_le bound) descriptor
        have valid' := @parsedSegments_valid environment.files ((segments line).take index) _ valid
        rw [parsedSegments_take_succ found] at opened
        cases parsed : parseCommand environment.files (segments line)[index]
            (parsedSegments environment.files start.parser ((segments line).take index)) with
        | mk result state =>
            rw [parsed] at opened
            cases result with
            | none =>
                have first : FirstRejected environment.files start.parser (segments line) index :=
                  ⟨⟨_, found, by rw [parsed]⟩, fun earlier early =>
                    accepted earlier (Nat.lt_of_lt_of_le (Nat.succ_lt_succ early) bound)⟩
                obtain ⟨_, closed⟩ := parseCommand_closes valid'
                  (show Complete (fun _ => True) environment.files from .inl pipes)
                  (fun own reads => intact own ⟨unflagged, index, _, first, found, reads⟩) parsed
                exact before (closed descriptor opened trivial)
            | some made =>
                obtain ⟨tree, read⟩ := parseCommand_some valid' parsed
                refine (read.mem_descriptors.mp opened).elim before fun new => .inr ?_
                have inside : index < count := by
                  by_cases rejected : Rejected environment.files start.parser (segments line)
                      ((segments line).length - 1)
                  · rw [trimmed rejected]
                    refine Nat.lt_of_le_of_ne (Nat.le_sub_one_of_lt bound) fun last => ?_
                    obtain ⟨segment, entry, none⟩ := rejected
                    rw [← last, found] at entry
                    cases entry
                    rw [← last, parsed] at none
                    cases none
                  · rw [whole rejected]
                    exact bound
                have entry := congrArg (·[index]?) shape
                simp only [List.getElem?_take, inside, if_true, parsedCommands_getElem?, found,
                  Option.map_some, parsed, List.getElem?_map] at entry
                obtain ⟨command, listed, same⟩ := Option.map_eq_some_iff.mp entry
                refine ⟨command, List.mem_of_getElem? listed, ?_⟩
                rw [Option.some.inj same]
                exact read.claims new
  rw [parser]
  have all := upTo _ (Nat.le_refl _)
  rwa [List.take_length] at all

end Reading

/-- A rejected line leaves open what the segments accepted before the rejected one have
opened: some of these contains a symbol. -/
def LeavesOpen (outcomes : FileOutcomes) (line : CString) (parser : ParserState) : Prop :=
  startsWith line backgroundFlag.text = false ∧
    (parseReadLine outcomes line parser 0).commands = none ∧
    ∃ index, Rejected outcomes parser (segments line) index ∧
      (∀ earlier < index, ¬ Rejected outcomes parser (segments line) earlier) ∧
      ∃ segment ∈ (segments line).take index, ∃ word ∈ runs segment,
        containsString redirectionCaretSymbols word = true

section Rejecting

variable {outcomes : FileOutcomes} {line : CString} {parser : ParserState} {lastExitCode : Int}

/-- What is open after a rejected line that reads no freed call. -/
theorem rejected_shrinks_iff (valid : parser.kernel.Valid)
    (intact : LineIntact outcomes line parser)
    (pipes : ∀ serial, outcomes.pipeSucceeds serial = true)
    (refused : (parseReadLine outcomes line parser lastExitCode).commands = none) :
    Shrinks parser.kernel (parseReadLine outcomes line parser lastExitCode).parser.kernel ↔
      ¬ LeavesOpen outcomes line parser := by
  have refused' : (parseReadLine outcomes line parser 0).commands = none :=
    parseReadLine_none_iff.mpr (parseReadLine_none_iff.mp refused)
  cases unflagged : startsWith line backgroundFlag.text with
  | true =>
      have same : (parseReadLine outcomes line parser lastExitCode).parser = parser := by
        simp [parseReadLine, unflagged]
      rw [same]
      refine iff_of_true (fun _ member => member) fun leaves => ?_
      rw [leaves.1] at unflagged
      cases unflagged
  | false =>
      by_cases empty : segments line = []
      · rw [parseReadLine_folded unflagged, empty]
        refine iff_of_true (fun _ member => member) fun leaves => ?_
        obtain ⟨_, _, index, ⟨_, found, _⟩, _⟩ := leaves
        rw [empty] at found
        cases found
      · obtain ⟨index, segment, first, found⟩ :=
          exists_firstRejected (exists_rejected unflagged refused empty)
        obtain ⟨valid', _, keeps⟩ := parsedSegments_keeps_iff valid first.accepted
        -- The rejected segment leaves what the segments before it have opened.
        cases parsed : parseCommand outcomes segment
            (parsedSegments outcomes parser ((segments line).take index)) with
        | mk result state =>
            have final : (parseReadLine outcomes line parser lastExitCode).parser = state := by
              rw [parseReadLine_first unflagged first found, parsed]
            obtain ⟨other, found', none⟩ := first.rejected
            cases found.symm.trans found'
            rw [parsed] at none
            cases none
            obtain ⟨kept, closed⟩ := parseCommand_closes valid'
              (show Complete (fun _ => True) outcomes from .inl pipes)
              (fun own reads => intact own ⟨unflagged, index, _, first, found, reads⟩) parsed
            have same : Shrinks parser.kernel state.kernel ↔ Shrinks parser.kernel
                (parsedSegments outcomes parser ((segments line).take index)).kernel :=
              ⟨fun shrinks descriptor opened => shrinks descriptor (kept descriptor opened),
                fun shrinks descriptor opened =>
                  shrinks descriptor (closed descriptor opened trivial)⟩
            rw [final, same]
            refine keeps.trans ⟨fun plain leaves => ?_, fun closed segment member word inside => ?_⟩
            · obtain ⟨_, _, other, bad, least, segment, member, word, inside, symbol⟩ := leaves
              cases FirstRejected.unique first ⟨bad, least⟩
              rw [plain segment member word inside] at symbol
              cases symbol
            · cases symbol : containsString redirectionCaretSymbols word with
              | false => rfl
              | true =>
                  exact absurd ⟨unflagged, refused', index, first.rejected, first.accepted, segment,
                    member, word, inside, symbol⟩ closed

end Rejecting

/-! ## Between two lines -/

/-- The event is not that of a line that is read. -/
def Event.Unread : Event → Prop
  | .line _ _ => False
  | _ => True

def ReadsNothing (start finish : Shell) : Prop :=
  Recorded Event.Unread start.control.trace finish.control.trace

instance : Std.Refl ReadsNothing where
  refl _ := refl_of (Recorded _) _

instance : IsTrans Shell ReadsNothing where
  trans _ _ _ before after := trans_of (Recorded _) before after

theorem Event.Inner.unread {event : Event} (inner : event.Inner) : event.Unread := by
  cases event <;> first | exact inner | trivial

theorem ReadsNothing.steps (environment : Environment) : ShellSteps environment ReadsNothing where
  jobs := by
    refine (@Course.steps (fun _ => False) environment).mono ?_
    rintro _ _ course shell rfl
    exact course.recorded.mono fun _ jobs => jobs.inner.unread
  moved _ _ _ := refl_of (Recorded _) _

theorem executeCommand_readsNothing (environment : Environment) (command : Command) :
    Moves ReadsNothing (executeCommand environment command) := by
  intro start
  apply executeCommand_ends
  · exact ((runCommand_moves environment command).mono fun _ _ course =>
      course.recorded.mono fun _ => Event.Inner.unread) _
  · exact fun _ _ => refl_of (Recorded _) _
  · exact fun _ _ => .single _ trivial

theorem executeCommands_readNothing (environment : Environment)
    (commands : List (Option Command)) :
    Moves ReadsNothing (executeCommands environment commands) := by
  apply executeCommands_moves
  · intro event start loop
    refine .single _ ?_
    cases event <;> trivial
  · exact fun command _ _ => executeCommand_readsNothing environment command _

section Turn

variable {environment : Environment} {input : Option CString} {start finish : Shell}

/-- One iteration of the loop: what comes before the line leaves the parser as it is. -/
theorem promptTurn_ok (ran : promptTurn environment input start = .ok ⟨⟩ finish) :
    ∃ (before parsed : Shell) (commands : Option (List (Option Command))),
      before.parser = start.parser ∧ ReadsNothing start before ∧
      readLine environment (input.getD "exit".toList) before = .ok commands parsed ∧
      match commands with
      | none => finish = parsed
      | some entries => executeCommands environment entries parsed = .ok ⟨⟩ finish := by
  obtain ⟨_, updated, update, ran⟩ := bind_eq_ok.mp ran
  obtain ⟨text, prompted, shown, ran⟩ := bind_eq_ok.mp ran
  obtain ⟨_, recorded, record, ran⟩ := bind_eq_ok.mp ran
  obtain ⟨commands, parsed, reads, ran⟩ := bind_eq_ok.mp ran
  have same : recorded.parser = start.parser :=
    calc
      recorded.parser = prompted.parser := (liftJob_keepsParser _ prompted).of_ok record
      _ = updated.parser := ((getPromptString_moves environment updated).of_ok shown).parser
      _ = start.parser := (liftJob_keepsParser _ start).of_ok update
  have quiet : ReadsNothing start recorded := by
    have first : ReadsNothing start updated :=
      (liftJob_lifted (ReadsNothing.steps environment).jobs.updateJobs start).of_ok update
    have second : ReadsNothing updated prompted :=
      ((ReadsNothing.steps environment).getPromptString updated).of_ok shown
    have third : ReadsNothing prompted recorded := by
      cases record
      exact .single _ trivial
    exact trans_of ReadsNothing first (trans_of ReadsNothing second third)
  refine ⟨recorded, parsed, commands, same, quiet, reads, ?_⟩
  cases commands with
  | none =>
      cases ran
      rfl
  | some entries => exact ran

/-- What an iteration of the loop leaves open. -/
theorem promptTurn_shrinks_iff (launching : environment.Launching)
    (valid : start.parser.kernel.Valid)
    (intact : LineIntact environment.files (input.getD "exit".toList) start.parser)
    (ran : promptTurn environment input start = .ok ⟨⟩ finish) :
    Shrinks finish.parser.kernel start.parser.kernel ∧
      (Shrinks start.parser.kernel finish.parser.kernel ↔
        ¬ LeavesOpen environment.files (input.getD "exit".toList) start.parser) := by
  obtain ⟨before, parsed, commands, same, _, read, rest⟩ := promptTurn_ok ran
  rw [← same] at valid intact ⊢
  obtain ⟨returned, parser⟩ := readLine_parsed read
  have grows := @parseReadLine_grows environment.files (input.getD "exit".toList) before.parser
    before.lastExitCode valid intact
  cases commands with
  | none =>
      cases rest
      rw [parser]
      exact ⟨grows.kept, rejected_shrinks_iff valid intact launching.pipes returned.symm⟩
  | some entries =>
      obtain ⟨accepted, rfl, _, sound⟩ := readLine_opened valid read
      constructor
      · have based : Based (· ∈ before.parser.kernel.descriptors) parsed.parser.kernel :=
          ⟨readLine_valid valid read, parser ▸ grows.kept⟩
        refine (executeCommands_based accepted sound ?_ based rest).opened
        intro command member descriptor inside claims
        obtain ⟨index, bound, rfl⟩ := List.getElem_of_mem member
        have entry : (accepted.map some)[index]? = some (some accepted[index]) := by
          rw [List.getElem?_map, List.getElem?_eq_getElem bound]
          rfl
        obtain ⟨_, _, made⟩ := readLine_lineCommand valid intact read entry
        have present := made.before.kept descriptor inside
        exact (made.obtained.claimed descriptor.number claims).2
          (Kernel.mem_numbers.mpr ⟨descriptor, present, rfl⟩)
      · refine iff_of_true ?_ fun leaves => ?_
        · exact executeCommands_shrinks launching accepted sound
            (readLine_claimed valid intact launching.pipes read) rest
        · have refused : (parseReadLine environment.files (input.getD "exit".toList) before.parser
              before.lastExitCode).commands = none :=
            parseReadLine_none_iff.mpr (parseReadLine_none_iff.mp leaves.2.1)
          rw [refused] at returned
          cases returned

end Turn

/-! ## The lines of a run -/

def Event.read? : Event → Option (CString × ParserState)
  | .line text parser => some (text, parser)
  | _ => none

/-- The lines that have been read, each with the state of the parser. -/
def Shell.linesRead (shell : Shell) : List (CString × ParserState) :=
  shell.control.trace.filterMap Event.read?

theorem ReadsNothing.linesRead {start finish : Shell} (reads : ReadsNothing start finish) :
    finish.linesRead = start.linesRead := by
  obtain ⟨events, same, unread⟩ := reads
  have none : events.filterMap Event.read? = [] := by
    refine List.filterMap_eq_nil_iff.mpr fun event member => ?_
    have quiet := unread event member
    cases event with
    | line => exact quiet.elim
    | _ => rfl
  rw [Shell.linesRead, same, List.filterMap_append, none, List.append_nil, Shell.linesRead]

theorem promptTurn_linesRead {environment : Environment} {input : Option CString}
    {start finish : Shell} (ran : promptTurn environment input start = .ok ⟨⟩ finish) :
    finish.linesRead = start.linesRead ++ [(input.getD "exit".toList, start.parser)] := by
  obtain ⟨before, parsed, commands, same, quiet, read, rest⟩ := promptTurn_ok ran
  have read' : parsed.linesRead =
      before.linesRead ++ [(input.getD "exit".toList, before.parser)] := by
    obtain ⟨_, _, got, read⟩ := bind_eq_ok.mp read
    cases got
    obtain ⟨_, _, recorded, read⟩ := bind_eq_ok.mp read
    cases recorded
    cases read
    simp [Shell.linesRead, Event.read?]
  have after : finish.linesRead = parsed.linesRead := by
    cases commands with
    | none => rw [rest]
    | some entries =>
        have quiet := (executeCommands_readNothing environment entries parsed).of_ok rest
        exact quiet.linesRead
  rw [after, read', quiet.linesRead, same]

theorem prompt_shrinks_iff {environment : Environment} (launching : environment.Launching)
    (inputs : List (Option CString)) : ∀ {start finish : Shell}, start.parser.kernel.Valid →
      prompt environment inputs start = .ok ⟨⟩ finish →
      ∃ lines, finish.linesRead = start.linesRead ++ lines ∧
        ((∀ entry ∈ lines, LineIntact environment.files entry.1 entry.2) →
          Shrinks finish.parser.kernel start.parser.kernel ∧
            (Shrinks start.parser.kernel finish.parser.kernel ↔
              ∀ entry ∈ lines, ¬ LeavesOpen environment.files entry.1 entry.2)) := by
  induction inputs with
  | nil =>
      intro start finish valid ran
      cases ran
      refine ⟨[], (List.append_nil _).symm, fun _ => ⟨fun _ member => member, ?_⟩⟩
      exact iff_of_true (fun _ member => member) (List.forall_mem_nil _)
  | cons input rest ih =>
      intro start finish valid ran
      unfold prompt at ran
      obtain ⟨_, _, got, ran⟩ := bind_eq_ok.mp ran
      cases got
      split at ran
      · cases ran
        refine ⟨[], (List.append_nil _).symm, fun _ => ⟨fun _ member => member, ?_⟩⟩
        exact iff_of_true (fun _ member => member) (List.forall_mem_nil _)
      · obtain ⟨_, middle, turn, ran⟩ := bind_eq_ok.mp ran
        obtain ⟨lines, read, later⟩ := ih (promptTurn_valid valid turn) ran
        refine ⟨(input.getD "exit".toList, start.parser) :: lines, ?_, fun intact => ?_⟩
        · rw [read, promptTurn_linesRead turn, List.append_assoc]
          rfl
        · obtain ⟨intact, intact'⟩ := List.forall_mem_cons.mp intact
          obtain ⟨kept, own⟩ := promptTurn_shrinks_iff launching valid intact turn
          obtain ⟨kept', others⟩ := later intact'
          refine ⟨fun descriptor opened => kept' descriptor (kept descriptor opened), ?_⟩
          rw [List.forall_mem_cons, ← own, ← others]
          constructor
          · intro shrinks
            exact ⟨fun descriptor opened => shrinks descriptor (kept' descriptor opened),
              fun descriptor opened => kept descriptor (shrinks descriptor opened)⟩
          · exact fun both descriptor opened => both.1 descriptor (both.2 descriptor opened)

theorem Shell.mem_linesRead {shell : Shell} {entry : CString × ParserState} :
    entry ∈ shell.linesRead ↔ .line entry.1 entry.2 ∈ shell.control.trace := by
  rw [Shell.linesRead, List.mem_filterMap]
  constructor
  · rintro ⟨event, recorded, same⟩
    cases event with
    | line text parser =>
        cases same
        exact recorded
    | _ => cases same
  · exact fun recorded => ⟨_, recorded, rfl⟩

/-- As long as `pipe`, `fork` and the handshakes succeed and no line makes the parser read a
freed call: whenever the shell is about to read a line, its descriptors are exactly those it
has been started with, if and only if no line it has read before was rejected with a symbol
in a segment accepted before. -/
theorem prompt_restores_descriptors_iff {environment : Environment} {cwd : CString}
    {inputs : List (Option CString)} {finish : Shell} (launching : environment.Launching)
    (ran : prompt environment inputs (initInternals cwd) = .ok ⟨⟩ finish)
    (intact : ∀ line parser, .line line parser ∈ finish.control.trace →
      LineIntact environment.files line parser) :
    (∀ descriptor, descriptor ∈ finish.parser.kernel.descriptors ↔
        descriptor ∈ startedShell.kernel.descriptors) ↔
      ∀ line parser, .line line parser ∈ finish.control.trace →
        ¬ LeavesOpen environment.files line parser := by
  have valid : (initInternals cwd).parser.kernel.Valid := valid_startedShell
  obtain ⟨lines, read, restores⟩ := prompt_shrinks_iff launching inputs valid ran
  have all : finish.linesRead = lines := read
  have listed : ∀ property : CString → ParserState → Prop,
      (∀ line parser, .line line parser ∈ finish.control.trace → property line parser) ↔
        ∀ entry ∈ lines, property entry.1 entry.2 := by
    intro property
    rw [← all]
    constructor
    · exact fun each entry member => each _ _ (Shell.mem_linesRead.mp member)
    · exact fun each line parser recorded =>
        each (line, parser) (Shell.mem_linesRead.mpr recorded)
  obtain ⟨kept, shrinks⟩ := restores ((listed _).mp intact)
  rw [listed fun line parser => ¬ LeavesOpen environment.files line parser, ← shrinks]
  constructor
  · exact fun same descriptor opened => (same descriptor).mp opened
  · exact fun fewer descriptor => ⟨fewer descriptor, kept descriptor⟩

/-- The file that `ls` would have written to stays open. -/
theorem rejected_line_leaves_file_open :
    ∃ finish, prompt .exiting [some "cat < a | tr b c".toList, some "ls > d & | & cat".toList]
        (initInternals "/".toList) = .ok ⟨⟩ finish ∧
      ∃ line parser, .line line parser ∈ finish.control.trace ∧
        LeavesOpen Environment.exiting.files line parser := by
  obtain ⟨_, finish, ran, opened⟩ := exists_of_returns
    (show returns (fun _ (finish : Shell) => finish.parser.kernel.descriptors.any
          (fun descriptor => !startedShell.kernel.descriptors.contains descriptor) &&
        decide (∀ entry ∈ finish.linesRead, ∀ segment ∈ segments entry.1,
          commandSubstitutionStart ∉ runs segment))
      (prompt .exiting [some "cat < a | tr b c".toList, some "ls > d & | & cat".toList]
        (initInternals "/".toList)) = true by decide +kernel)
  obtain ⟨opened, plain⟩ := Bool.and_eq_true_iff.mp opened
  obtain ⟨descriptor, left, new⟩ := List.any_eq_true.mp opened
  have intact : ∀ line parser, .line line parser ∈ finish.control.trace →
      LineIntact Environment.exiting.files line parser := by
    intro line parser read
    have unsubstituted := of_decide_eq_true plain (line, parser) (Shell.mem_linesRead.mpr read)
    exact lineIntact_of_unsubstituted unsubstituted
  refine ⟨finish, ran, ?_⟩
  by_contra closed
  have restored := (prompt_restores_descriptors_iff launching_exiting ran intact).mpr
    fun line parser read leaves => closed ⟨line, parser, read, leaves⟩
  rw [Bool.not_eq_true', List.contains_eq_mem, decide_eq_false_iff_not] at new
  exact new ((restored descriptor).mp left)

end Jsh
