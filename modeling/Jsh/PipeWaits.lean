import Jsh.Streams

/-!
# Waiting for the end of a pipe

A process that reads from a pipe waits until nobody has its write end any more. Although
a process may have write ends it does not use, those of the pipes of later commands, no
processes of a line wait for each other in a circle, and none of them waits for the shell
while the shell waits for it.
-/

set_option autoImplicit false

namespace Jsh

open Library

/-! ## The stages of a tree -/

mutual

/-- When a stage has ended once the pipes it reads from are closed, and the pipe it writes
to is closed once it has ended, all stages end. -/
theorem Pipeline.all_ended {Ended : WiredStage → Prop} {Closed : Link → Prop}
    (commandString : CString) {input output : Option Link} (front : ∀ link ∈ input, Closed link) :
    ∀ tree : Pipeline Labels.wired,
      (∀ stage ∈ tree.wiredStages commandString input output,
        (∀ link ∈ stage.sources, Closed link) → Ended stage) →
      (∀ stage ∈ tree.wiredStages commandString input output, Ended stage →
        ∀ link ∈ stage.output, Closed link) →
      (∀ stage ∈ tree.wiredStages commandString input output, Ended stage) ∧
        ∀ link ∈ output, Closed link
  | .mk name items next, ends, closes => by
      simp only [Pipeline.wiredStages, List.forall_mem_append, List.forall_mem_singleton] at ends
      simp only [Pipeline.wiredStages, List.forall_mem_append, List.forall_mem_singleton] at closes
      obtain ⟨⟨nestedEnds, laterEnds⟩, ownEnds⟩ := ends
      obtain ⟨⟨nestedCloses, laterCloses⟩, ownCloses⟩ := closes
      obtain ⟨nested, read⟩ := Items.all_ended items nestedEnds nestedCloses
      have own := ownEnds (List.forall_mem_append.mpr
        ⟨read, fun link member => front link (Option.mem_toList.mp member)⟩)
      have written := ownCloses own
      simp only [Pipeline.wiredStages, List.forall_mem_append, List.forall_mem_singleton]
      cases next with
      | last => exact ⟨⟨⟨nested, List.forall_mem_nil _⟩, own⟩, written⟩
      | pipe link rest =>
          have carried : ∀ other ∈ some link, Closed other := written
          obtain ⟨later, last⟩ := Pipeline.all_ended _ carried rest laterEnds laterCloses
          exact ⟨⟨⟨nested, later⟩, own⟩, last⟩

theorem Items.all_ended {Ended : WiredStage → Prop} {Closed : Link → Prop} :
    ∀ items : Items Labels.wired,
      (∀ stage ∈ items.wiredStages, (∀ link ∈ stage.sources, Closed link) → Ended stage) →
      (∀ stage ∈ items.wiredStages, Ended stage → ∀ link ∈ stage.output, Closed link) →
      (∀ stage ∈ items.wiredStages, Ended stage) ∧ ∀ link ∈ items.readLinks, Closed link
  | .nil, _, _ => ⟨List.forall_mem_nil _, List.forall_mem_nil _⟩
  | .word _ rest, ends, closes => Items.all_ended rest ends closes
  | .redirection _ _ _ rest, ends, closes => Items.all_ended rest ends closes
  | .substitution link body rest, ends, closes => by
      simp only [Items.wiredStages, List.forall_mem_append] at ends closes ⊢
      have none : ∀ link ∈ (none : Option Link), Closed link := fun _ member => by cases member
      obtain ⟨inner, carried⟩ := Pipeline.all_ended _ none body ends.1 closes.1
      obtain ⟨others, read⟩ := Items.all_ended rest ends.2 closes.2
      exact ⟨⟨inner, others⟩, List.forall_mem_cons.mpr ⟨carried link rfl, read⟩⟩

end

/-! ## Serial numbers of a line -/

section Serials

variable {environment : Environment} {line : CString} {start parsed : Shell}
  {commands : List (Option Command)}

/-- The pipes made before a segment of the line. -/
def pipesBefore (outcomes : FileOutcomes) (line : CString) (start : ParserState) (index : Nat) :
    Nat :=
  (parsedSegments outcomes start ((segments line).take index)).kernel.pipes

theorem pipesBefore_le (valid : start.parser.kernel.Valid)
    (intact : LineIntact environment.files line start.parser)
    (read : readLine environment line start = .ok (some commands) parsed) {first last : Nat}
    (order : first ≤ last) (bound : last ≤ commands.length) :
    pipesBefore environment.files line start.parser first ≤
      pipesBefore environment.files line start.parser last := by
  induction last, order using Nat.le_induction with
  | base => exact Nat.le_refl _
  | succ last _ ih =>
      obtain ⟨accepted, rfl, _⟩ := readLine_pending valid intact read
      obtain ⟨command, entry⟩ : ∃ command, (accepted.map some)[last]? = some (some command) := by
        rw [List.length_map] at bound
        refine ⟨accepted[last], ?_⟩
        rw [List.getElem?_map, List.getElem?_eq_getElem bound]
        rfl
      obtain ⟨_, _, made⟩ := readLine_lineCommand valid intact read entry
      exact Nat.le_trans (ih (Nat.le_of_succ_le bound)) made.obtained.pipes

theorem LineCommand.serial_bounds {outcomes : FileOutcomes} {start parsed : ParserState}
    {index : Nat} {command : Command} {segment : CString} {tree : Pipeline Labels.wired}
    (made : LineCommand outcomes line start parsed index command segment tree) {link : Link}
    (member : link ∈ tree.links) :
    pipesBefore outcomes line start index ≤ link.serial ∧
      link.serial < pipesBefore outcomes line start (index + 1) := by
  have serial := List.mem_map_of_mem (f := Link.serial) member
  rw [made.read.wires.serials, List.mem_range'_1] at serial
  have pipes : pipesBefore outcomes line start (index + 1) =
      pipesBefore outcomes line start index + tree.links.length := made.read.wires.pipes
  rw [pipes]
  exact serial

/-- A pipe belongs to one command. -/
theorem LineCommand.index_unique (valid : start.parser.kernel.Valid)
    (intact : LineIntact environment.files line start.parser)
    (read : readLine environment line start = .ok (some commands) parsed) {first second : Nat}
    {command other : Command} {segment segment' : CString} {tree tree' : Pipeline Labels.wired}
    (made : LineCommand environment.files line start.parser parsed.parser first command segment
      tree)
    (made' : LineCommand environment.files line start.parser parsed.parser second other segment'
      tree')
    (inside : first < commands.length) (inside' : second < commands.length) {link link' : Link}
    (member : link ∈ tree.links) (member' : link' ∈ tree'.links)
    (same : link.serial = link'.serial) : first = second := by
  have bounds := made.serial_bounds member
  have bounds' := made'.serial_bounds member'
  rcases Nat.lt_trichotomy first second with before | equal | after
  · have later : first + 1 ≤ second := before
    have between := pipesBefore_le valid intact read later (Nat.le_of_lt inside')
    omega
  · exact equal
  · have earlier : second + 1 ≤ first := after
    have between := pipesBefore_le valid intact read earlier (Nat.le_of_lt inside)
    omega

/-- An end of a pipe of a command, as it is at the end of the parse. -/
theorem LineCommand.exists_link {outcomes : FileOutcomes} {start parsed : ParserState}
    {index : Nat} {command : Command} {segment : CString} {tree : Pipeline Labels.wired}
    (made : LineCommand outcomes line start parsed index command segment tree)
    (valid : parsed.kernel.Valid) {number : Int} {serial : Nat}
    (pipe : number ∈ pipeNumbers command.openPipes)
    (opened : ⟨number, .pipeWrite serial⟩ ∈ parsed.kernel.descriptors) :
    ∃ link ∈ tree.links, link.writeEnd = number ∧ link.serial = serial := by
  have openPipes : command.openPipes = tree.links.map (·.ends) := made.read.openPipes
  rw [openPipes, mem_link_descriptors] at pipe
  obtain ⟨descriptor, listed, same⟩ := pipe
  have entered := made.after.kept _ (made.read.entered (List.mem_append_left _ listed)).1
  have equal : descriptor = ⟨number, .pipeWrite serial⟩ :=
    List.inj_on_of_nodup_map valid.distinct entered opened same
  obtain ⟨link, inside, shape⟩ := List.mem_flatMap.mp listed
  simp only [Link.descriptors, List.mem_cons, List.not_mem_nil, or_false] at shape
  rcases shape with rfl | rfl
  · cases equal
    exact ⟨link, inside, rfl, rfl⟩
  · cases equal

end Serials

/-! ## Who has the write end of a pipe -/

/-- The child reads from the pipe: it is one of those its call reads from. -/
def Child.ReadsFrom (child : Child) (serial : Nat) : Prop :=
  ∃ index ∈ child.call.readingPipes, ∃ pipe, child.command.openPipes[index]? = some pipe ∧
    fileOf child.descriptors pipe.1 = some (.pipeRead serial)

/-- Some descriptor refers to the write end of the pipe. -/
def HasWriteEnd (descriptors : List Descriptor) (serial : Nat) : Prop :=
  ∃ number : Nat, fileOf descriptors number = some (.pipeWrite serial)

theorem mem_of_fileOf {descriptors : List Descriptor} {number : Int} {file : OpenFile}
    (opened : fileOf descriptors number = some file) : ⟨number, file⟩ ∈ descriptors := by
  obtain ⟨descriptor, found, rfl⟩ := Option.map_eq_some_iff.mp opened
  have same : descriptor.number = number := by simpa using List.find?_some found
  rw [← same]
  exact List.mem_of_find?_eq_some found

section Launched

variable {environment : Environment} {line : CString} {start parsed : Shell}
  {commands : List (Option Command)} {index : Nat} {child : Child} {command : Command}
  {segment : CString} {tree : Pipeline Labels.wired} {stage : WiredStage}

/-- When a command is executed, of the pipes of the line those of the commands before it
have been closed. -/
theorem Comes.pending {first : Nat} {kernel : Kernel} {entries : List (Option Command)}
    {start state : Shell} (comes : Comes environment entries start index command state) :
    ∀ {commands : List Command}, entries = commands.map some →
      Pending first kernel start.parser.kernel commands →
      commands[index]? = some command ∧
        Pending first kernel state.parser.kernel (commands.drop index) := by
  induction comes with
  | now =>
      intro commands same pending
      cases commands with
      | nil => cases same
      | cons command later =>
          cases same
          exact ⟨rfl, pending⟩
  | later ran _ ih =>
      intro commands same pending
      cases commands with
      | nil => cases same
      | cons first later =>
          cases same
          exact ih rfl (pending.step ran)

/-- A child of the command at `index` runs the stage its call is that of. -/
theorem Launches.runs (valid : start.parser.kernel.Valid)
    (intact : LineIntact environment.files line start.parser)
    (read : readLine environment line start = .ok (some commands) parsed)
    (launches : Launches environment commands parsed index child)
    (entry : commands[index]? = some (some command))
    (made : LineCommand environment.files line start.parser parsed.parser index command segment
      tree) :
    child.command = command ∧ ∃ stage ∈ tree.wiredStages segment none none,
      stage.call = child.call ∧ ∀ stage ∈ tree.wiredStages segment none none,
        stage.call = child.call →
          child.Runs start.parser.kernel.streams parsed.parser.kernel.opens stage := by
  obtain ⟨other, state, comes, launched⟩ := launches.comes
  obtain ⟨_, _, entry', _, based⟩ := comes.made valid intact read
  rw [entry] at entry'
  cases entry'
  have forked := launched.forked based
  obtain ⟨stage, member, call⟩ := forked.exists_stage made
  exact ⟨forked.named, stage, member, call, fun _ => forked.runs valid made⟩

/-- A child that reads from a pipe runs a stage that has it among its sources. -/
theorem Child.ReadsFrom.exists_source {serial : Nat} (reads : child.ReadsFrom serial)
    (made : LineCommand environment.files line start.parser parsed.parser index command segment
      tree) (named : child.command = command)
    (member : stage ∈ tree.wiredStages segment none none)
    (runs : child.Runs start.parser.kernel.streams parsed.parser.kernel.opens stage) :
    ∃ link ∈ stage.sources, link ∈ tree.links ∧ link.serial = serial := by
  obtain ⟨position, own, pipe, entry, opened⟩ := reads
  rw [runs.call, stage.call_readingPipes] at own
  obtain ⟨link, source, rfl⟩ := List.mem_map.mp own
  have inside := ((made.read.within member).1.has_source source).1
  have ends : command.openPipes[link.index]? = some link.ends := made.read.openPipes_index inside
  rw [named, ends] at entry
  cases entry
  have reading : fileOf child.descriptors link.readEnd = some (.pipeRead link.serial) :=
    runs.sources link source
  have same : some (OpenFile.pipeRead link.serial) = some (.pipeRead serial) :=
    reading.symm.trans opened
  cases same
  exact ⟨link, source, inside, rfl⟩

/-- A stream of a stage that refers to the write end of a pipe. -/
theorem Child.Runs.writes {own : Stream → Option OpenFile} {opens : List (CString × OpenMode)}
    (runs : child.Runs own opens stage) {stream : Stream} {serial : Nat}
    (opened : fileOf child.descriptors stream.fileno = some (.pipeWrite serial)) :
    own stream = some (.pipeWrite serial) ∨ ∃ link ∈ stage.output, link.serial = serial := by
  rw [runs.streams, WiredStage.file, WiredStage.descriptor] at opened
  cases redirected : stage.items.lastRedirection stream with
  | some descriptor =>
      obtain ⟨_, file, _⟩ := runs.redirections stream descriptor redirected
      rw [redirected, Option.some_or, Option.map_some, Option.some_or, file] at opened
      cases opened
  | none =>
      rw [redirected, Option.none_or] at opened
      cases linked : stage.linked stream with
      | none => exact .inl (by rwa [linked] at opened)
      | some descriptor =>
          rw [linked, Option.map_some, Option.some_or] at opened
          cases stream with
          | stdin =>
              obtain ⟨_, _, rfl⟩ := Option.map_eq_some_iff.mp linked
              cases opened
          | stdout =>
              obtain ⟨link, output, rfl⟩ := Option.map_eq_some_iff.mp linked
              cases opened
              exact .inr ⟨link, output, rfl⟩
          | stderr => cases linked

theorem LineCommand.serial_range (valid : start.parser.kernel.Valid)
    (intact : LineIntact environment.files line start.parser)
    (read : readLine environment line start = .ok (some commands) parsed)
    (made : LineCommand environment.files line start.parser parsed.parser index command segment
      tree)
    (inside : index < commands.length) {link : Link} (member : link ∈ tree.links) :
    start.parser.kernel.pipes ≤ link.serial ∧ link.serial < parsed.parser.kernel.pipes := by
  have below := pipesBefore_le valid intact read (Nat.zero_le index) (Nat.le_of_lt inside)
  have bounds := made.serial_bounds member
  have entered := (made.read.entered (List.mem_append_left _ (mem_link_writing member))).1
  have opened := made.after.kept _ entered
  have early := (readLine_valid valid read).serials _ opened link.serial (.inr rfl)
  exact ⟨Nat.le_trans below bounds.1, early⟩

theorem LineCommand.link_unique {outcomes : FileOutcomes} {start parsed : ParserState}
    (made : LineCommand outcomes line start parsed index command segment tree) {link link' : Link}
    (member : link ∈ tree.links) (member' : link' ∈ tree.links)
    (same : link.serial = link'.serial) : link = link' := by
  refine List.inj_on_of_nodup_map ?_ member member' same
  rw [made.read.wires.serials]
  exact List.nodup_range'

/-- Before the command at `earlier`, a descriptor of the shell that refers to the write end
of a pipe of the command at `index` is the one the parse has made. -/
theorem Comes.writeEnd (valid : start.parser.kernel.Valid)
    (intact : LineIntact environment.files line start.parser)
    (read : readLine environment line start = .ok (some commands) parsed)
    (made : LineCommand environment.files line start.parser parsed.parser index command segment
      tree)
    (entry : commands[index]? = some (some command)) {earlier : Nat} {other : Command}
    {state : Shell} (comes : Comes environment commands parsed earlier other state) {link : Link}
    (member : link ∈ tree.links) {number : Int}
    (opened : ⟨number, .pipeWrite link.serial⟩ ∈ state.parser.kernel.descriptors) :
    earlier ≤ index ∧ number = link.writeEnd := by
  have inside := (List.getElem?_eq_some_iff.mp entry).1
  obtain ⟨accepted, rfl, pending, _⟩ := readLine_pending valid intact read
  obtain ⟨late, early⟩ := made.serial_range valid intact read inside member
  obtain ⟨_, pending'⟩ := comes.pending rfl pending
  obtain ⟨present, owner, listed, pipe⟩ :=
    (pending'.ends _ link.serial (.inr rfl) late early).mp opened
  obtain ⟨offset, found⟩ := List.mem_iff_getElem?.mp listed
  rw [List.getElem?_drop] at found
  have entry' : (accepted.map some)[earlier + offset]? = some (some owner) := by
    rw [List.getElem?_map, found]
    rfl
  obtain ⟨_, tree', made'⟩ := readLine_lineCommand valid intact read entry'
  have known := readLine_valid valid read
  obtain ⟨link', member', _, serial⟩ := made'.exists_link known pipe present
  have inside' := (List.getElem?_eq_some_iff.mp entry').1
  have same := made'.index_unique valid intact read made inside' inside member' member serial
  rw [same, entry] at entry'
  cases entry'
  obtain ⟨own, listed, number, serial⟩ := made.exists_link known pipe present
  rw [made.link_unique listed member serial] at number
  exact ⟨same ▸ Nat.le_add_right _ _, number.symm⟩

/-- A standard descriptor of a child that refers to the write end of a pipe of the line. -/
theorem Launches.standard_writer (valid : start.parser.kernel.Valid)
    (intact : LineIntact environment.files line start.parser)
    (read : readLine environment line start = .ok (some commands) parsed)
    (made : LineCommand environment.files line start.parser parsed.parser index command segment
      tree)
    (entry : commands[index]? = some (some command))
    (launches : Launches environment commands parsed index child) {stream : Stream} {serial : Nat}
    (late : start.parser.kernel.pipes ≤ serial)
    (opened : fileOf child.descriptors stream.fileno = some (.pipeWrite serial)) :
    ∃ link ∈ tree.links, link.serial = serial ∧ link.index ∈ child.call.writingPipes := by
  obtain ⟨_, stage, listed, call, runs⟩ := launches.runs valid intact read entry made
  cases (runs stage listed call).writes opened with
  | inl own =>
      have before := valid.serials _ (mem_of_fileOf own) serial (.inr rfl)
      exact absurd before (Nat.not_lt.mpr late)
  | inr output =>
      obtain ⟨link, output, same⟩ := output
      have member := (made.read.within listed).1.output link output
      refine ⟨link, member, same, ?_⟩
      rw [← call, WiredStage.call, stageCall_writingPipes, Option.mem_def.mp output]
      exact .head _

/-- A child that has the write end of a pipe belongs to an earlier command than the pipe, or
is the writer of the pipe. -/
theorem Launches.writer (valid : start.parser.kernel.Valid)
    (intact : LineIntact environment.files line start.parser)
    (read : readLine environment line start = .ok (some commands) parsed)
    (made : LineCommand environment.files line start.parser parsed.parser index command segment
      tree)
    (entry : commands[index]? = some (some command)) {earlier : Nat} {link : Link}
    (member : link ∈ tree.links) (launches : Launches environment commands parsed earlier child)
    (has : HasWriteEnd child.descriptors link.serial) :
    earlier < index ∨ earlier = index ∧ link.index ∈ child.call.writingPipes := by
  have inside := (List.getElem?_eq_some_iff.mp entry).1
  obtain ⟨late, early⟩ := made.serial_range valid intact read inside member
  obtain ⟨other, state, comes, launched⟩ := launches.comes
  obtain ⟨_, _, entry', made', _⟩ := comes.made valid intact read
  obtain ⟨number, opened⟩ := has
  by_cases standard : number ≤ 2
  · obtain ⟨stream, same⟩ : ∃ stream : Stream, stream.fileno = number := by
      match number, standard with
      | 0, _ => exact ⟨.stdin, rfl⟩
      | 1, _ => exact ⟨.stdout, rfl⟩
      | 2, _ => exact ⟨.stderr, rfl⟩
    rw [← same] at opened
    obtain ⟨link', member', serial, _⟩ :=
      launches.standard_writer valid intact read made' entry' late opened
    have inside' := (List.getElem?_eq_some_iff.mp entry').1
    have equal := made'.index_unique valid intact read made inside' inside member' member serial
    subst equal
    obtain ⟨own, listed, serial, writes⟩ :=
      launches.standard_writer valid intact read made entry late opened
    rw [made.link_unique listed member serial] at writes
    exact .inr ⟨rfl, writes⟩
  · obtain ⟨accepted, rfl, pending, _⟩ := readLine_pending valid intact read
    obtain ⟨listed, pending'⟩ := comes.pending rfl pending
    obtain ⟨bound, same⟩ := List.getElem?_eq_some_iff.mp listed
    rw [List.drop_eq_getElem_cons bound, same] at pending'
    obtain ⟨opening, sound⟩ := pending'.opening
    have inherits := launched.inherits opening sound
    have above : (2 : Int) < number := by omega
    obtain ⟨held, keeps⟩ :=
      (inherits.ends _ link.serial (.inr rfl) early above).mp (mem_of_fileOf opened)
    obtain ⟨order, end'⟩ := comes.writeEnd valid intact read made entry member held
    rcases Nat.lt_or_eq_of_le order with before | equal
    · exact .inl before
    · subst equal
      rw [entry] at entry'
      cases entry'
      refine .inr ⟨rfl, keeps.writing link.index link.ends ?_ end'.symm⟩
      rw [inherits.command]
      exact made.read.openPipes_index member

end Launched

/-! ## No circular wait -/

/-- While `before` runs, `after` does not see the end of a pipe it reads from. -/
def Delays (environment : Environment) (commands : List (Option Command)) (parsed : Shell)
    (before after : Child) : Prop :=
  (∃ index, Launches environment commands parsed index before) ∧
    (∃ index, Launches environment commands parsed index after) ∧
      ∃ serial, after.ReadsFrom serial ∧ HasWriteEnd before.descriptors serial

/-- The pipes of a command have one writer. -/
theorem CommandRead.writer_unique {outcomes : FileOutcomes} {segment : CString}
    {state state' : ParserState} {command : Command} {tree : Pipeline Labels.wired}
    (read : CommandRead outcomes segment state state' command tree) {first second : CommandCall}
    (listed : first ∈ command.commandCalls) (listed' : second ∈ command.commandCalls)
    {index : Nat} (writes : index ∈ first.writingPipes) (writes' : index ∈ second.writingPipes) :
    first = second := by
  have indices : (linkIndices tree.links).Nodup := by
    have range : linkIndices tree.links = List.range' 0 tree.links.length := read.wires.indices
    rw [range]
    exact List.nodup_range'
  have once : (command.commandCalls.flatMap (·.writingPipes)).Nodup := by
    rw [(read.perm.flatMap_right _).nodup_iff, List.nodup_iff_count_le_one]
    intro index
    rw [tree.count_writingPipes index segment none none]
    exact List.nodup_iff_count_le_one.mp indices index
  have symmetric : Std.Symm (List.Disjoint.onFun fun call : CommandCall => call.writingPipes) :=
    ⟨fun _ _ apart => List.disjoint_symm apart⟩
  by_contra different
  have apart := (List.nodup_flatMap.mp once).2.forall listed listed' different
  exact apart writes writes'

section Waits

variable {environment : Environment} {line : CString} {start parsed : Shell}
  {commands : List (Option Command)} {index : Nat} {child : Child}

/-- A process of the command at `index`, when those of earlier commands wait for nobody. -/
theorem Launches.accessible (valid : start.parser.kernel.Valid)
    (intact : LineIntact environment.files line start.parser)
    (read : readLine environment line start = .ok (some commands) parsed)
    (launches : Launches environment commands parsed index child)
    (earlier : ∀ before < index, ∀ other, Launches environment commands parsed before other →
      Acc (Delays environment commands parsed) other) :
    Acc (Delays environment commands parsed) child := by
  obtain ⟨_, _, comes, _⟩ := launches.comes
  obtain ⟨segment, tree, entry, made, _⟩ := comes.made valid intact read
  -- a stage has ended when its processes wait for nobody, a pipe is closed when its writers do
  let Ended (stage : WiredStage) : Prop :=
    ∀ other, Launches environment commands parsed index other → stage.call = other.call →
      Acc (Delays environment commands parsed) other
  let Closed (link : Link) : Prop :=
    ∀ other, Launches environment commands parsed index other →
      link.index ∈ other.call.writingPipes → Acc (Delays environment commands parsed) other
  have ends : ∀ stage ∈ tree.wiredStages segment none none,
      (∀ link ∈ stage.sources, Closed link) → Ended stage := by
    intro stage listed closed other launched call
    obtain ⟨named, _, _, _, runs⟩ := launched.runs valid intact read entry made
    refine .intro _ fun before delays => ?_
    obtain ⟨⟨position, begun⟩, _, serial, reads, has⟩ := delays
    obtain ⟨link, source, member, rfl⟩ :=
      reads.exists_source made named listed (runs stage listed call)
    cases begun.writer valid intact read made entry member has with
    | inl first => exact earlier position first before begun
    | inr own =>
        obtain ⟨rfl, writes⟩ := own
        exact closed link source before begun writes
  have closes : ∀ stage ∈ tree.wiredStages segment none none, Ended stage →
      ∀ link ∈ stage.output, Closed link := by
    intro stage listed ended link output other launched writes
    obtain ⟨_, stage', listed', call, _⟩ := launched.runs valid intact read entry made
    have calls := (made.read.within listed).2
    have calls' := (made.read.within listed').2
    have written : link.index ∈ stage.call.writingPipes := by
      rw [WiredStage.call, stageCall_writingPipes, Option.mem_def.mp output]
      exact .head _
    rw [call] at calls'
    exact ended other launched (made.read.writer_unique calls calls' written writes)
  have none : ∀ link ∈ (none : Option Link), Closed link := fun _ member => by cases member
  obtain ⟨all, _⟩ := tree.all_ended segment none ends closes
  obtain ⟨_, stage, listed, call, _⟩ := launches.runs valid intact read entry made
  exact all stage listed child launches call

/-- While the shell waits for the processes of a command, it has no write ends of the pipes
of this command and of those before it. -/
theorem Comes.no_writeEnd {command : Command} {state launched : Shell}
    {result : Option InternalExitInfo × Job} {earlier : Nat} {serial : Nat}
    (valid : start.parser.kernel.Valid)
    (intact : LineIntact environment.files line start.parser)
    (read : readLine environment line start = .ok (some commands) parsed)
    (comes : Comes environment commands parsed index command state)
    (launch : executeAsJob environment command (setupJob command) state = .ok result launched)
    (order : earlier ≤ index) (launches : Launches environment commands parsed earlier child)
    (reads : child.ReadsFrom serial) :
    ¬ HasWriteEnd (closePipes command.openPipes launched.parser.kernel).descriptors serial := by
  intro has
  obtain ⟨number, opened⟩ := has
  obtain ⟨held, free⟩ := mem_closePipes.mp (mem_of_fileOf opened)
  obtain ⟨_, _, before, _⟩ := launches.comes
  obtain ⟨_, tree, entry, made, _⟩ := before.made valid intact read
  obtain ⟨named, stage, listed, call, runs⟩ := launches.runs valid intact read entry made
  obtain ⟨link, _, member, rfl⟩ :=
    reads.exists_source made named listed (runs stage listed call)
  have inside := (List.getElem?_eq_some_iff.mp entry).1
  obtain ⟨_, early⟩ := made.serial_range valid intact read inside member
  have opening : Opened parsed.parser.kernel.pipes state.parser.kernel := by
    obtain ⟨accepted, rfl, pending, _⟩ := readLine_pending valid intact read
    exact (comes.pending rfl pending).2.opened
  have inherits : Moves (Inheriting command parsed.parser.kernel.pipes)
      (executeAsJob environment command (setupJob command)) :=
    executeCalls_inherits command.commandCalls 0 none (setupJob command)
  have inherited := (inherits state).of_ok launch opening
  have present := (inherited.same _ link.serial (.inr rfl) early).mp held
  obtain ⟨order', same⟩ := comes.writeEnd valid intact read made entry member present
  have equal : earlier = index := Nat.le_antisymm order order'
  subst equal
  obtain ⟨_, _, entry', _⟩ := comes.made valid intact read
  rw [entry] at entry'
  cases entry'
  refine free (mem_pipeNumbers.mpr ⟨link.ends, ?_, .inr same.symm⟩)
  exact List.mem_of_getElem? (made.read.openPipes_index member)

end Waits

/-- The processes of a line never wait for each other in a circle, and while the shell waits
for those of a command, none of them or of those before them waits for the shell. -/
theorem line_waits_end {environment : Environment} {line : CString} {start parsed : Shell}
    {commands : List (Option Command)} (valid : start.parser.kernel.Valid)
    (intact : LineIntact environment.files line start.parser)
    (read : readLine environment line start = .ok (some commands) parsed) :
    WellFounded (Delays environment commands parsed) ∧
      ∀ index command state result launched,
        Comes environment commands parsed index command state →
        executeAsJob environment command (setupJob command) state = .ok result launched →
        ∀ earlier ≤ index, ∀ child, Launches environment commands parsed earlier child →
          ∀ serial, child.ReadsFrom serial →
            ¬ HasWriteEnd (closePipes command.openPipes launched.parser.kernel).descriptors
                serial := by
  constructor
  · have accessible : ∀ index child, Launches environment commands parsed index child →
        Acc (Delays environment commands parsed) child := by
      intro index
      induction index using Nat.strong_induction_on with
      | h index ih => exact fun child launches => launches.accessible valid intact read ih
    refine ⟨fun child => .intro _ fun before delays => ?_⟩
    obtain ⟨index, launches⟩ := delays.1
    exact accessible index before launches
  · intro index command state result launched comes launch earlier order child launches serial reads
    exact comes.no_writeEnd valid intact read launch order launches reads

/-- `b` waits for `sleep`, which has the write end of its pipe as well. -/
theorem sleep_delays_later_pipe :
    ∃ commands parsed before after,
      readLine .exiting "sleep 1 & a | b".toList (initInternals "/".toList) =
        .ok (some commands) parsed ∧
      before.call.name = "sleep".toList ∧ after.call.name = "b".toList ∧
      Delays .exiting commands parsed before after ∧
      WellFounded (Delays .exiting commands parsed) := by
  have valid : (initInternals "/".toList).parser.kernel.Valid := valid_startedShell
  obtain ⟨commands, parsed, first, before, read, launches, checked⟩ :=
    @exists_launched .exiting "sleep 1 & a | b".toList _ valid
      (fun _ child => decide (child.call.name = "sleep".toList ∧
        fileOf child.descriptors 4 = some (.pipeWrite 0))) (by decide +kernel)
  obtain ⟨commands', parsed', second, after, read', launches', checked'⟩ :=
    @exists_launched .exiting "sleep 1 & a | b".toList _ valid
      (fun _ child => decide (child.call.name = "b".toList ∧ child.call.readingPipes = [0] ∧
        child.command.openPipes = [(3, 4)] ∧
        fileOf child.descriptors 3 = some (.pipeRead 0))) (by decide +kernel)
  obtain ⟨rfl, rfl⟩ : commands = commands' ∧ parsed = parsed' := by
    rw [read] at read'
    cases read'
    exact ⟨rfl, rfl⟩
  obtain ⟨name, held⟩ := of_decide_eq_true checked
  obtain ⟨name', reads, pipes, opened⟩ := of_decide_eq_true checked'
  have delays : Delays .exiting commands parsed before after := by
    refine ⟨⟨first, launches⟩, ⟨second, launches'⟩, 0, ⟨0, ?_, (3, 4), ?_, opened⟩, 4, held⟩
    · rw [reads]
      exact .head _
    · rw [pipes]
      rfl
  have intact : LineIntact Environment.exiting.files "sleep 1 & a | b".toList startedShell :=
    lineIntact_of_lastExitCode (by decide +kernel)
  exact ⟨commands, parsed, before, after, read, name, name', delays,
    (line_waits_end valid intact read).1⟩

end Jsh
