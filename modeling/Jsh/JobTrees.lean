import Jsh.Foreground
import Jsh.JobGroups

/-!
# Trees of jobs

What `jobs -t` prints for the jobs of the tables that the runs of the shell reach.
-/

set_option autoImplicit false

namespace Jsh

open Library

/-! ## Lines -/

/-- The line of `print_subjob`. -/
def Subjob.line (subjob : Subjob) : CString :=
  "\t".toList ++ decimal subjob.pid ++ "\t".toList ++ jobStatusToString subjob.lastStatus ++
    "\t".toList ++ subjob.command ++ "\n".toList

/-- The lines of `print_children` have a bar after their tabulations. -/
def isDescendantLine (line : CString) : Bool := (line.dropWhile (· == '\t')).head? == some '|'

theorem dropWhile_tabulations (count : Nat) (text : CString) :
    (List.replicate count '\t' ++ text).dropWhile (· == '\t') = text.dropWhile (· == '\t') := by
  induction count with
  | zero => rfl
  | succ count ih =>
      rw [List.replicate_succ, List.cons_append, List.dropWhile_cons_of_pos rfl]
      exact ih

theorem isDescendantLine_bar (count : Nat) (text : CString) :
    isDescendantLine ("\t".toList ++ List.replicate count '\t' ++ ("| \t".toList ++ text)) = true := by
  have one : "\t".toList ++ List.replicate count '\t' = List.replicate (count + 1) '\t' := by
    rw [List.replicate_succ]
    rfl
  rw [isDescendantLine, one, dropWhile_tabulations]
  rfl

/-- A number starts with a digit or a sign. -/
theorem decimal_head (number : Int) :
    ∃ char rest, decimal number = char :: rest ∧ (char.isDigit = true ∨ char = '-') := by
  cases number with
  | ofNat number =>
      cases digits : Nat.toDigits 10 number with
      | nil => exact absurd digits Nat.toDigits_ne_nil
      | cons char rest =>
          have member : char ∈ Nat.toDigits 10 number := by
            rw [digits]
            exact .head _
          have digit := Nat.isDigit_of_mem_toDigits (by decide) (by decide) member
          exact ⟨char, rest, digits, .inl digit⟩
  | negSucc number => exact ⟨'-', _, rfl, .inr rfl⟩

theorem isDescendantLine_subjob (subjob : Subjob) : isDescendantLine subjob.line = false := by
  obtain ⟨char, rest, digits, start⟩ := decimal_head subjob.pid
  have apart : ∀ other : Char, other.isDigit = false → other ≠ '-' → char ≠ other := by
    rintro other noDigit noSign rfl
    cases start with
    | inl digit => rw [noDigit] at digit; cases digit
    | inr sign => exact noSign sign
  have noTab := apart '\t' (by decide) (by decide)
  have noBar := apart '|' (by decide) (by decide)
  have shape : subjob.line = '\t' :: char :: (rest ++ "\t".toList ++
      jobStatusToString subjob.lastStatus ++ "\t".toList ++ subjob.command ++ "\n".toList) := by
    rw [Subjob.line, digits]
    rfl
  rw [isDescendantLine, shape, List.dropWhile_cons_of_pos rfl,
    List.dropWhile_cons_of_neg (by simpa using noTab)]
  simpa using noBar

/-! ## Printing a tree -/

/-- Only lines have been printed. -/
structure Prints (fd : Int) (lines : List CString) (start finish : Control) : Prop where
  table : finish.table = start.table
  trace : finish.trace = start.trace ++ lines.map (.print fd)

theorem Prints.append {fd : Int} {lines lines' : List CString} {start middle finish : Control}
    (before : Prints fd lines start middle) (after : Prints fd lines' middle finish) :
    Prints fd (lines ++ lines') start finish :=
  ⟨after.table.trans before.table, by
    rw [after.trace, before.trace, List.map_append, List.append_assoc]⟩

theorem dprintf_prints (fd : Int) (text : CString) (start : Control) :
    dprintf fd text start = .ok () (start.printed fd text) ∧
      Prints fd [text] start (start.printed fd text) :=
  ⟨rfl, rfl, rfl⟩

mutual

theorem printTree_prints (subjob : Subjob) (tabulation : Nat) (fd : Int) :
    ∀ (tree : ProcessTree) (start : Control), ∃ finish lines,
      printTree subjob tabulation fd tree start = .ok () finish ∧ Prints fd lines start finish ∧
        ∀ line ∈ lines, isDescendantLine line = true
  | .node pid children, start => by
      unfold printTree
      obtain ⟨ran, prints⟩ := dprintf_prints fd ("\t".toList ++ List.replicate tabulation '\t' ++
        "| \t".toList ++ decimal pid ++ "\t".toList ++ jobStatusToString subjob.lastStatus ++
        "\t".toList ++ subjob.command ++ "\n".toList) start
      obtain ⟨finish, lines, ran', prints', descendants⟩ :=
        printTrees_prints subjob (tabulation + 1) fd children (start.printed fd _)
      refine ⟨finish, _, (bind_of_ok ran).trans ran', prints.append prints', ?_⟩
      intro line member
      rcases List.mem_cons.mp member with rfl | later
      · simp only [List.append_assoc]
        rw [← List.append_assoc]
        exact isDescendantLine_bar tabulation _
      · exact descendants line later

theorem printTrees_prints (subjob : Subjob) (tabulation : Nat) (fd : Int) :
    ∀ (trees : List ProcessTree) (start : Control), ∃ finish lines,
      printTrees subjob tabulation fd trees start = .ok () finish ∧ Prints fd lines start finish ∧
        ∀ line ∈ lines, isDescendantLine line = true
  | [], start => ⟨start, [], by unfold printTrees; rfl, ⟨rfl, (List.append_nil _).symm⟩, by simp⟩
  | tree :: rest, start => by
      unfold printTrees
      obtain ⟨middle, lines, ran, prints, descendants⟩ :=
        printTree_prints subjob tabulation fd tree start
      obtain ⟨finish, lines', ran', prints', descendants'⟩ :=
        printTrees_prints subjob tabulation fd rest middle
      refine ⟨finish, _, (bind_of_ok ran).trans ran', prints.append prints', ?_⟩
      intro line member
      rcases List.mem_append.mp member with first | later
      · exact descendants line first
      · exact descendants' line later

end

/-- The lines of a job, without those of the descendants of its processes. -/
def Job.treeLines (job : Job) : List CString :=
  (if job.subjobs ≠ [] then ["[".toList ++ decimal job.id ++ "]".toList] else []) ++
    job.subjobs.reduceOption.map Subjob.line

/-- These lines and lines of descendants have been printed. -/
def TreesPrinted (fd : Int) (lines : List CString) (start finish : Control) : Prop :=
  ∃ printed, Prints fd printed start finish ∧
    printed.filter (fun line => !isDescendantLine line) = lines

theorem TreesPrinted.nil (fd : Int) (start : Control) : TreesPrinted fd [] start start :=
  ⟨[], ⟨rfl, (List.append_nil _).symm⟩, rfl⟩

theorem TreesPrinted.append {fd : Int} {lines lines' : List CString}
    {start middle finish : Control} (before : TreesPrinted fd lines start middle)
    (after : TreesPrinted fd lines' middle finish) :
    TreesPrinted fd (lines ++ lines') start finish := by
  obtain ⟨printed, prints, rfl⟩ := before
  obtain ⟨printed', prints', rfl⟩ := after
  exact ⟨_, prints.append prints', List.filter_append ..⟩

theorem TreesPrinted.single (fd : Int) {line : CString} (start : Control)
    (own : isDescendantLine line = false) :
    TreesPrinted fd [line] start (start.printed fd line) :=
  ⟨[line], (dprintf_prints fd line start).2, by simp [own]⟩

theorem printSubjobTrees_printed {environment : Environment} {fd : Int}
    {subjobs : List (Option Subjob)} (full : none ∉ subjobs) : ∀ start : Control, ∃ finish,
      printSubjobTrees environment fd subjobs start = .ok () finish ∧
        TreesPrinted fd (subjobs.reduceOption.map Subjob.line) start finish := by
  induction subjobs with
  | nil => exact fun start => ⟨start, rfl, .nil fd start⟩
  | cons slot rest ih =>
      intro start
      cases slot with
      | none => exact absurd (.head _) full
      | some subjob =>
          obtain ⟨middle, lines, ran, prints, descendants⟩ := printTrees_prints subjob 0 fd
            (environment.children (start.printed fd subjob.line).calls subjob.pid)
            { start.printed fd subjob.line with calls := (start.printed fd subjob.line).calls + 1 }
          obtain ⟨finish, ran', printed⟩ := ih (fun absent => full (.tail _ absent)) middle
          have children : TreesPrinted fd [] (start.printed fd subjob.line) middle := by
            refine ⟨lines, ⟨prints.table, prints.trace⟩, ?_⟩
            rw [List.filter_eq_nil_iff]
            intro line member
            simp [descendants line member]
          have own := TreesPrinted.single fd start (isDescendantLine_subjob subjob)
          refine ⟨finish, ?_, own.append (children.append printed)⟩
          rw [printSubjobTrees, bind_of_ok (show printSubjob subjob fd start = .ok ()
            (start.printed fd subjob.line) from rfl), bind_of_ok (show printChildren environment
              subjob subjob.pid 0 fd (start.printed fd subjob.line) = .ok () middle from ran)]
          exact ran'

/-- The loop reads the empty slots. -/
theorem printSubjobTrees_crashes {environment : Environment} {fd : Int}
    {subjobs : List (Option Subjob)} (absent : none ∈ subjobs) :
    ∀ start finish : Control, printSubjobTrees environment fd subjobs start ≠ .ok () finish := by
  induction subjobs with
  | nil => cases absent
  | cons slot rest ih =>
      intro start finish ran
      cases slot with
      | none => cases ran
      | some subjob =>
          obtain ⟨_, _, _, ran⟩ := bind_eq_ok.mp ran
          obtain ⟨_, _, _, ran⟩ := bind_eq_ok.mp ran
          rcases List.mem_cons.mp absent with impossible | later
          · cases impossible
          · exact ih later _ _ ran

theorem isDescendantLine_header (id : Nat) :
    isDescendantLine ("[".toList ++ decimal id ++ "]".toList) = false := rfl

theorem printJobTree_printed {environment : Environment} {job : Job} (fd : Int)
    (full : none ∉ job.subjobs) (start : Control) : ∃ finish,
      printJobTree environment job fd start = .ok () finish ∧
        TreesPrinted fd job.treeLines start finish := by
  unfold printJobTree Job.treeLines
  split
  · obtain ⟨finish, ran, printed⟩ := printSubjobTrees_printed full
      (start.printed fd ("[".toList ++ decimal job.id ++ "]".toList))
    have header := TreesPrinted.single fd start (isDescendantLine_header job.id)
    exact ⟨finish, ran, header.append printed⟩
  · exact printSubjobTrees_printed full start

theorem printJobTree_crashes {environment : Environment} {job : Job} {fd : Int}
    (absent : none ∈ job.subjobs) (start finish : Control) :
    printJobTree environment job fd start ≠ .ok () finish := by
  intro ran
  unfold printJobTree at ran
  split at ran
  · obtain ⟨_, _, _, ran⟩ := bind_eq_ok.mp ran
    exact printSubjobTrees_crashes absent _ _ ran
  · exact printSubjobTrees_crashes absent _ _ ran

theorem printJobs_printed {environment : Environment} {fd : Int} {jobs : List Job}
    (full : ∀ job ∈ jobs, none ∉ job.subjobs) : ∀ start : Control, ∃ finish,
      printJobs environment true fd jobs start = .ok () finish ∧
        TreesPrinted fd (jobs.flatMap Job.treeLines) start finish := by
  induction jobs with
  | nil => exact fun start => ⟨start, rfl, .nil fd start⟩
  | cons job rest ih =>
      intro start
      obtain ⟨middle, ran, printed⟩ :=
        printJobTree_printed fd (full job (.head _)) start
      obtain ⟨finish, ran', printed'⟩ := ih (fun other member => full other (.tail _ member)) middle
      exact ⟨finish, (bind_of_ok ran).trans ran', printed.append printed'⟩

theorem printJobs_crashes {environment : Environment} {fd : Int} {jobs : List Job} {job : Job}
    (member : job ∈ jobs) (absent : none ∈ job.subjobs) : ∀ start finish : Control,
      printJobs environment true fd jobs start ≠ .ok () finish := by
  induction jobs with
  | nil => cases member
  | cons first rest ih =>
      intro start finish ran
      obtain ⟨_, middle, ran, ran'⟩ := bind_eq_ok.mp ran
      rcases List.mem_cons.mp member with rfl | later
      · exact printJobTree_crashes absent _ _ ran
      · exact ih later _ _ ran'

/-! ## Selection -/

theorem parseIntmaxT_prints (string : CString) (fd : Int) (start : Control) :
    ∃ found finish messages, parseIntmaxT string fd start = .ok found finish ∧
      Prints fd messages start finish ∧ (found.isSome = true → finish = start) := by
  have refused : ∀ text : CString, ∃ (found : Option Int) (finish : Control) (messages : List CString),
      (do dprintf fd text; return none : JobAction (Option Int)) start = .ok found finish ∧
        Prints fd messages start finish ∧ (found.isSome = true → finish = start) := fun text =>
    ⟨none, _, [text], rfl, (dprintf_prints fd text start).2, fun some => by cases some⟩
  unfold parseIntmaxT
  dsimp only
  split
  · exact refused _
  · split
    · exact refused _
    · split
      · exact refused _
      · exact ⟨_, start, [], rfl, ⟨rfl, (List.append_nil _).symm⟩, fun _ => rfl⟩

/-- The slot found is that of a job, and then nothing is printed. -/
theorem getJob_prints (jobIdString : CString) (fd : Int) (start : Control) :
    ∃ found finish messages, getJob jobIdString fd start = .ok found finish ∧
      Prints fd messages start finish ∧
      ∀ index, found = some index → finish = start ∧ ∃ job, start.table.slot index = some job := by
  have refused : ∀ text : CString, ∃ (found : Option Nat) (finish : Control) (messages : List CString),
      (do dprintf fd text; return none : JobAction (Option Nat)) start = .ok found finish ∧
        Prints fd messages start finish ∧
        ∀ index, found = some index → finish = start ∧ ∃ job, start.table.slot index = some job :=
    fun text => ⟨none, _, [text], rfl, (dprintf_prints fd text start).2, fun _ some => by cases some⟩
  unfold getJob
  split
  · exact refused _
  · obtain ⟨parsed, middle, messages, ran, prints, same⟩ :=
      parseIntmaxT_prints (jobIdString.drop 1) fd start
    cases parsed with
    | none =>
        rw [bind_of_ok ran]
        exact ⟨none, middle, messages, rfl, prints, fun _ some => by cases some⟩
    | some parsedValue =>
        cases same rfl
        rw [bind_of_ok ran]
        dsimp only
        rw [bind_of_ok (get_apply start)]
        split
        · exact refused _
        · split
          · exact refused _
          · split
            · exact refused _
            · next occupied =>
              refine ⟨_, start, [], rfl, ⟨rfl, (List.append_nil _).symm⟩, fun index some => ?_⟩
              cases some
              exact ⟨rfl, Option.ne_none_iff_exists'.mp occupied⟩

/-- The position of the job's identifier among the arguments of `jobs` with `-t`. -/
def treeArgument (call : CommandCall) : Option Nat :=
  if call.argc > 3 then none
  else if call.argc > 1 ∧ call.argv.getD 1 [] = ['-', 't'] then some 2
  else if call.argc = 3 ∧ call.argv.getD 2 [] = ['-', 't'] then some 1
  else none

/-- The jobs `jobs` shows: the one that is named, or all those of the table. -/
def selectedJobs (call : CommandCall) (stringJobIndex : Nat) (control : Control) : List Job :=
  let argument := call.argv.getD stringJobIndex []
  if call.argc > stringJobIndex ∧ startsWith argument ['%'] then
    match getJob argument call.stderr control with
    | .ok (some index) _ => (control.table.slot index).toList
    | _ => []
  else control.table.jobs

/-- The trees of the selected jobs have been printed, after the messages on the standard
error of the call. -/
def SelectionPrinted (call : CommandCall) (stringJobIndex : Nat) (start finish : Control) : Prop :=
  ∃ messages middle, Prints call.stderr messages start middle ∧
    TreesPrinted call.stdout ((selectedJobs call stringJobIndex start).flatMap Job.treeLines)
      middle finish

theorem selectedJobs_named {call : CommandCall} {index : Nat} {start finish : Control}
    {found : Option Nat}
    (named : call.argc > index ∧ startsWith (call.argv.getD index []) ['%'] = true)
    (reads : getJob (call.argv.getD index []) call.stderr start = .ok found finish) :
    selectedJobs call index start = (found.bind start.table.slot).toList := by
  unfold selectedJobs
  dsimp only
  rw [if_pos named, reads]
  cases found <;> rfl

theorem selectedJobs_all {call : CommandCall} {index : Nat} (start : Control)
    (all : ¬ (call.argc > index ∧ startsWith (call.argv.getD index []) ['%'] = true)) :
    selectedJobs call index start = start.table.jobs := by
  unfold selectedJobs
  dsimp only
  rw [if_neg all]

theorem printSelectedJobs_printed {environment : Environment} {call : CommandCall} {index : Nat}
    {start : Control} (full : ∀ job ∈ selectedJobs call index start, none ∉ job.subjobs) :
    ∃ value finish, printSelectedJobs environment call true index start = .ok value finish ∧
      SelectionPrinted call index start finish := by
  have silent : Prints call.stderr [] start start := ⟨rfl, (List.append_nil _).symm⟩
  unfold SelectionPrinted printSelectedJobs
  dsimp only
  by_cases named : call.argc > index ∧ startsWith (call.argv.getD index []) ['%'] = true
  · obtain ⟨found, middle, messages, reads, prints, occupied⟩ :=
      getJob_prints (call.argv.getD index []) call.stderr start
    rw [selectedJobs_named named reads] at full ⊢
    rw [if_pos named, bind_of_ok reads]
    cases found with
    | none => exact ⟨1, middle, rfl, messages, middle, prints, .nil _ _⟩
    | some slot =>
        obtain ⟨rfl, job, found⟩ := occupied slot rfl
        rw [Option.bind_some, found] at full ⊢
        obtain ⟨finish, ran, printed⟩ :=
          printJobTree_printed call.stdout (full job (.head _)) middle
        refine ⟨0, finish, ?_, [], middle, silent, by simpa using printed⟩
        dsimp only
        rw [bind_of_ok (get_apply middle), found]
        exact (bind_of_ok ran).trans rfl
  · rw [selectedJobs_all start named] at full ⊢
    rw [if_neg named, bind_of_ok (get_apply start)]
    obtain ⟨finish, ran, printed⟩ :=
      printJobs_printed full start
    exact ⟨0, finish, (bind_of_ok ran).trans rfl, [], start, silent, printed⟩

theorem printSelectedJobs_crashes {environment : Environment} {call : CommandCall} {index : Nat}
    {start : Control} {job : Job} (member : job ∈ selectedJobs call index start)
    (absent : none ∈ job.subjobs) (value : Int) (finish : Control) :
    printSelectedJobs environment call true index start ≠ .ok value finish := by
  intro ran
  unfold printSelectedJobs at ran
  dsimp only at ran
  by_cases named : call.argc > index ∧ startsWith (call.argv.getD index []) ['%'] = true
  · obtain ⟨found, middle, messages, reads, prints, occupied⟩ :=
      getJob_prints (call.argv.getD index []) call.stderr start
    rw [selectedJobs_named named reads] at member
    rw [if_pos named, bind_of_ok reads] at ran
    cases found with
    | none => cases member
    | some slot =>
        obtain ⟨rfl, other, found⟩ := occupied slot rfl
        rw [Option.bind_some, found] at member
        cases List.mem_singleton.mp member
        dsimp only at ran
        rw [bind_of_ok (get_apply middle), found] at ran
        obtain ⟨_, _, ran, _⟩ := bind_eq_ok.mp ran
        exact printJobTree_crashes absent _ _ ran
  · rw [selectedJobs_all start named] at member
    rw [if_neg named, bind_of_ok (get_apply start)] at ran
    obtain ⟨_, _, ran, _⟩ := bind_eq_ok.mp ran
    exact printJobs_crashes member absent _ _ ran

/-! ## `jobs -t` -/

theorem jobsCommand_tree {call : CommandCall} {index : Nat}
    (tree : treeArgument call = some index) (environment : Environment) :
    jobsCommand environment call = (fdUpdateJobs environment call.stdout >>= fun _ =>
      printSelectedJobs environment call true index) := by
  unfold treeArgument at tree
  unfold jobsCommand
  split at tree
  · cases tree
  · next few =>
    rw [if_neg few]
    split at tree
    · next second =>
      cases tree
      rw [if_pos second]
    · next other =>
      rw [if_neg other]
      split at tree
      · next third =>
        cases tree
        rw [if_pos third]
      · cases tree

/-- `jobs -t` prints the trees of the jobs it selects after its update. -/
def PrintsTrees (environment : Environment) (call : CommandCall) (stringJobIndex : Nat)
    (updated start : Control) : Prop :=
  ∃ value finish, jobsCommand environment call start = .ok value finish ∧
    SelectionPrinted call stringJobIndex updated finish

theorem printsTrees_iff {environment : Environment} {call : CommandCall} {index : Nat}
    {start updated : Control} (tree : treeArgument call = some index)
    (update : fdUpdateJobs environment call.stdout start = .ok () updated) :
    PrintsTrees environment call index updated start ↔
      ∀ job ∈ selectedJobs call index updated, none ∉ job.subjobs := by
  rw [PrintsTrees, jobsCommand_tree tree, bind_of_ok update]
  constructor
  · rintro ⟨value, finish, ran, _⟩ job member absent
    exact printSelectedJobs_crashes member absent value finish ran
  · exact printSelectedJobs_printed

/-! ## The jobs of a run -/

/-- A slot is empty if and only if its call is a built-in. -/
def SlotsOf (calls : List CommandCall) (subjobs : List (Option Subjob)) : Prop :=
  List.Forall₂ (fun call slot => slot = none ↔ isInternalCommand call = true) calls subjobs

theorem executeAsJob_slotsOf {environment : Environment} {command : Command} {start finish : Shell}
    {info : InternalExitInfo} {job : Job}
    (launch : executeAsJob environment command (setupJob command) start =
      .ok (some info, job) finish) : SlotsOf command.commandCalls job.subjobs := by
  refine (executeAsJob_slots launch).1.imp fun call slot launched => ?_
  cases launched with
  | internal internal => simp [internal]
  | external external _ => simp [external]

theorem SlotsOf.updated {calls : List CommandCall} {subjobs subjobs' : List (Option Subjob)}
    (slots : SlotsOf calls subjobs) (updated : SubjobsUpdated subjobs subjobs') :
    SlotsOf calls subjobs' := by
  induction slots generalizing subjobs' with
  | nil =>
      cases updated
      exact .nil
  | cons slot _ ih =>
      cases updated with
      | cons same rest =>
          refine .cons ?_ (ih rest)
          rw [← slot]
          cases same <;> simp

/-- The job was launched for a command that has been executed. -/
def Job.From (trace : List Event) (job : Job) : Prop :=
  ∃ command later, .command command later ∈ trace ∧ SlotsOf command.commandCalls job.subjobs

theorem Job.From.mono {before after : List Event} {job : Job} (grows : before <+: after)
    (from' : job.From before) : job.From after := by
  obtain ⟨command, later, member, slots⟩ := from'
  exact ⟨command, later, grows.subset member, slots⟩

/-- Every job of the table was launched for a command that has been executed. -/
structure Sourced (trace : List Event) (table : JobTable) : Prop where
  consistent : table.Consistent
  jobs : ∀ job ∈ table.jobs, job.From trace

/-- The trace grows, and the jobs of all tables still come from its commands. -/
structure Sources (start finish : Shell) : Prop where
  trace : start.control.trace <+: finish.control.trace
  held : TablesHold (Sourced start.control.trace) start.control →
    TablesHold (Sourced finish.control.trace) finish.control

instance : Std.Refl Sources where
  refl _ := ⟨List.prefix_refl _, id⟩

instance : IsTrans Shell Sources where
  trans _ _ _ before after :=
    ⟨before.trace.trans after.trace, fun held => after.held (before.held held)⟩

theorem TablesHold.grows {before after : List Event} {control : Control}
    (held : TablesHold (Sourced before) control) (grows : before <+: after) :
    TablesHold (Sourced after) control :=
  held.mono fun _ sourced => ⟨sourced.consistent, fun job member => (sourced.jobs job member).mono grows⟩

theorem ShellCourse.sources {added : Job → Prop} {start finish : Shell}
    (course : ShellCourse added start finish)
    (launched : ∀ job, added job → job.From start.control.trace) : Sources start finish := by
  refine ⟨course.grows, fun held => TablesHold.grows ?_ course.grows⟩
  apply course.preserves (TablesHold (Sourced start.control.trace)) _ _ held
  · intro before after moved held
    refine moved.tablesHold (fun sourced => ⟨moved.consistent sourced.consistent, ?_⟩) held
    refine moved.jobs (fun updated from' => ?_) (fun {job} _ allowed => launched job allowed) sourced.jobs
    obtain ⟨command, later, member, slots⟩ := from'
    exact ⟨command, later, member, slots.updated updated.subjobs⟩
  · intro control event ofCalls held
    refine held.record fun other member => ?_
    cases List.mem_singleton.mp member
    cases event <;> simp [Event.OfCalls] at ofCalls ⊢

theorem record_sources {event : Event} (silent : ∀ table, event ≠ .table table) (start : Shell) :
    Sources start (start.recording event) := by
  have grows : start.control.trace <+: (start.recording event).control.trace := ⟨[event], rfl⟩
  refine ⟨grows, fun held => (TablesHold.record held ?_).grows grows⟩
  intro other member
  cases List.mem_singleton.mp member
  exact silent

theorem executeCommand_sources (environment : Environment) (command : Command)
    (later : List (Option Command)) (start : Shell) :
    Ends (Sources (start.recording (.command command later)))
      (start.recording (.command command later)) (executeCommand environment command) := by
  have from' : ∀ {job : Job}, SlotsOf command.commandCalls job.subjobs →
      job.From (start.recording (.command command later)).control.trace := fun slots =>
    ⟨command, later, List.mem_append_right _ (.head _), slots⟩
  apply executeCommand_ends
  · have course : Moves (ShellCourse fun job => SlotsOf command.commandCalls job.subjobs)
        (runCommand environment command) := by
      intro state
      apply runCommand_course
      intro _
      apply executeExternalCommand_course
      · exact fun _ _ _ _ launch => executeAsJob_slotsOf launch
      · exact fun _ _ _ _ launch _ updated _ => (executeAsJob_slotsOf launch).updated updated.subjobs
    exact ShellCourse.sources (course _) fun _ => from'
  · exact fun _ _ => ⟨List.prefix_refl _, id⟩
  · intro exitCode shell
    have recorded : Sources shell (shell.recording (.result exitCode)) :=
      record_sources (by simp) shell
    exact ⟨recorded.trace, recorded.held⟩

theorem prompt_sources (environment : Environment) (inputs : List (Option CString)) :
    Moves Sources (prompt environment inputs) := by
  apply prompt_moves
  · apply (Calm.steps environment).mono
    intro start finish calm
    have course : ShellCourse (fun _ => False) start finish := .single (.calm calm)
    exact course.sources fun _ => False.elim
  · intro event start outer
    exact record_sources (by cases event <;> simp [Event.OfLoop] at outer ⊢) start
  · intro line start
    have recorded : Sources start (start.recording (.line line start.parser)) :=
      record_sources (by simp) start
    exact ⟨recorded.trace, recorded.held⟩
  · exact fun command later start => executeCommand_sources environment command later start

theorem selectedJobs_slot {call : CommandCall} {index : Nat} {control : Control} {job : Job}
    (selected : job ∈ selectedJobs call index control) :
    ∃ slot, control.table.slot slot = some job := by
  by_cases named : call.argc > index ∧ startsWith (call.argv.getD index []) ['%'] = true
  · obtain ⟨found, _, _, reads, _, _⟩ :=
      getJob_prints (call.argv.getD index []) call.stderr control
    rw [selectedJobs_named named reads] at selected
    cases found with
    | none => cases selected
    | some slot =>
        rw [Option.bind_some, Option.mem_toList] at selected
        exact ⟨slot, selected⟩
  · rw [selectedJobs_all control named] at selected
    obtain ⟨slot, inside, same⟩ := List.getElem_of_mem (JobTable.mem_jobs.mp selected)
    exact ⟨slot, JobTable.slot_eq_some.mpr (same ▸ List.getElem?_eq_getElem inside)⟩

/-- A command with a built-in and a call that is none. -/
def Command.Mixed (command : Command) : Prop :=
  (∃ call ∈ command.commandCalls, isInternalCommand call = true) ∧
    ∃ call ∈ command.commandCalls, isInternalCommand call = false

theorem SlotsOf.absent_iff {calls : List CommandCall} {subjobs : List (Option Subjob)}
    (slots : SlotsOf calls subjobs) :
    (none ∈ subjobs ↔ ∃ call ∈ calls, isInternalCommand call = true) ∧
      ((∃ subjob, some subjob ∈ subjobs) ↔ ∃ call ∈ calls, isInternalCommand call = false) := by
  induction slots with
  | nil => simp
  | @cons call slot calls subjobs same _ ih =>
      cases slot with
      | none =>
          have internal : isInternalCommand call = true := same.mp rfl
          simp [internal, ih.2]
      | some subjob =>
          have external : isInternalCommand call = false := by
            rw [Bool.eq_false_iff]
            exact fun internal => by cases same.mpr internal
          simp [external, ih.1]

/-- `jobs -t` prints the trees of the jobs it selects, each process once, if and only if
none of them was launched by a command that mixes built-ins and processes. -/
theorem jobs_trees_printed (environment : Environment) (cwd : CString)
    (inputs : List (Option CString)) :
    let final := finalState (prompt environment inputs (initInternals cwd))
    ∀ table, table = final.control.table ∨ .table table ∈ final.control.trace →
      ∀ (later : Environment) (call : CommandCall) (index : Nat) (start : Control),
        treeArgument call = some index → start.table = table →
        ∃ updated, fdUpdateJobs later call.stdout start = .ok () updated ∧
          (PrintsTrees later call index updated start ↔
            ∀ job ∈ selectedJobs call index updated, ∀ command others,
              .command command others ∈ final.control.trace →
              SlotsOf command.commandCalls job.subjobs → ¬ command.Mixed) ∧
          ((∀ command others, .command command others ∈ final.control.trace → ¬ command.Mixed) →
            PrintsTrees later call index updated start) := by
  intro final table reached later call index start tree same
  have initial : TablesHold (Sourced []) (initInternals cwd).control := by
    refine ⟨⟨consistent_initJobTable, fun job member => ?_⟩, by simp [initInternals]⟩
    cases List.eq_of_mem_replicate (JobTable.mem_jobs.mp member)
  have held := (prompt_sources environment inputs (initInternals cwd)).held initial
  have sourced : Sourced final.control.trace start.table := by
    rw [same]
    rcases reached with rfl | recorded
    · exact held.table
    · exact held.tables table recorded
  obtain ⟨updated, _, update, _⟩ :=
    fdUpdateJobs_passed sourced.consistent
  have launched : ∀ job ∈ selectedJobs call index updated,
      (∃ subjob, some subjob ∈ job.subjobs) ∧ job.From final.control.trace := by
    intro job' selected
    obtain ⟨slot, left⟩ := selectedJobs_slot selected
    obtain ⟨alive, job, found, kept⟩ := fdUpdateJobs_remaining sourced.consistent update left
    obtain ⟨command, others, member, slots⟩ :=
      sourced.jobs job (JobTable.mem_jobs_of_slot found)
    exact ⟨Job.hasSubjob_of_unfinished alive, command, others, member, slots.updated kept.subjobs⟩
  have exactly : PrintsTrees later call index updated start ↔
      ∀ job ∈ selectedJobs call index updated, ∀ command others,
        .command command others ∈ final.control.trace →
        SlotsOf command.commandCalls job.subjobs → ¬ command.Mixed := by
    rw [printsTrees_iff tree update]
    constructor
    · intro full job selected command _ _ slots mixed
      exact full job selected (slots.absent_iff.1.mpr mixed.1)
    · intro pure job selected absent
      obtain ⟨present, command, others, member, slots⟩ := launched job selected
      exact pure job selected command others member slots
        ⟨slots.absent_iff.1.mp absent, slots.absent_iff.2.mp present⟩
  exact ⟨updated, update, exactly, fun none =>
    exactly.mpr fun _ _ command others member _ => none command others member⟩

/-- Processes that neither stop nor end. -/
def Environment.sleeping : Environment :=
  { Environment.exiting with waitpid := fun _ _ => .unchanged }

/-- After `sleep 5 | cat &` the trees of the jobs are printed. -/
theorem pipeline_tree_printed :
    let final := finalState (prompt .sleeping [some "sleep 5 | cat &".toList]
      (initInternals "/".toList))
    let jobs := newCommandCall ["jobs".toList, "-t".toList] "jobs -t".toList
    final.control.table.size = 1 ∧
      ∃ updated, PrintsTrees .sleeping jobs 2 updated final.control := by
  intro final jobs
  have pure : (final.control.trace.all fun
      | .command command _ => command.commandCalls.all (!isInternalCommand ·)
      | _ => true) = true := by decide +kernel
  obtain ⟨updated, _, _, printed⟩ := jobs_trees_printed .sleeping "/".toList
    [some "sleep 5 | cat &".toList] _ (.inl rfl) .sleeping jobs 2 final.control rfl rfl
  refine ⟨by decide +kernel, updated, printed fun command others ran mixed => ?_⟩
  have calls := List.all_eq_true.mp pure _ ran
  obtain ⟨call, member, internal⟩ := mixed.1
  have external := List.all_eq_true.mp calls call member
  rw [internal] at external
  cases external

/-- After `cd | sleep 5 &` the shell crashes in `jobs -t`. -/
theorem mixed_pipeline_tree_crashes :
    ∃ shell, prompt .sleeping [some "cd | sleep 5 &".toList, some "jobs -t".toList]
      (initInternals "/".toList) = .error .crashed shell := by
  have crashes : (match prompt .sleeping [some "cd | sleep 5 &".toList, some "jobs -t".toList]
      (initInternals "/".toList) with
    | .error .crashed _ => true
    | _ => false) = true := by decide +kernel
  split at crashes
  · next shell ran => exact ⟨shell, ran⟩
  · cases crashes

end Jsh
