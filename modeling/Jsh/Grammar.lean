import Jsh.Command

/-!
# The language of command strings

Syntax trees of the accepted command strings, and what a wired tree says about
the command the parser builds. A tree carries a label on each redirection and on
each link (a pipe symbol or a substitution): none for the grammar itself, the
descriptors they received for a wired tree.
-/

set_option autoImplicit false

namespace Jsh

/-- The words of a string: its maximal runs of non-space characters. -/
def runs (string : CString) : List CString := (string.splitOn ' ').filter (· ≠ [])

theorem words_commandSeparator (string : CString) : words commandSeparator string = runs string :=
  words_eq_splitOn rfl string

/-- A token other than the ten symbols. -/
structure Word where
  text : CString
  ordinary : containsString redirectionCaretSymbols text = false
  deriving DecidableEq

/-- The seven redirection symbols. -/
inductive Redirection where
  | input
  | output
  | outputTruncate
  | outputAppend
  | error
  | errorTruncate
  | errorAppend
  deriving DecidableEq, Repr

def Redirection.text : Redirection → CString
  | .input => ['<']
  | .output => ['>']
  | .outputTruncate => ['>', '|']
  | .outputAppend => ['>', '>']
  | .error => ['2', '>']
  | .errorTruncate => ['2', '>', '|']
  | .errorAppend => ['2', '>', '>']

def Redirection.stream : Redirection → Stream
  | .input => .stdin
  | .output | .outputTruncate | .outputAppend => .stdout
  | .error | .errorTruncate | .errorAppend => .stderr

def Redirection.mode : Redirection → OpenMode
  | .input => .readOnly
  | .output | .error => .createNew
  | .outputTruncate | .errorTruncate => .truncate
  | .outputAppend | .errorAppend => .append

/-- The labels a tree carries on its redirections and links. -/
structure Labels where
  redirection : Type
  link : Type

mutual

/-- A pipeline: the name and the items of its first stage, and what follows them. -/
inductive Pipeline (labels : Labels) where
  | mk (name : Word) (items : Items labels) (next : Next labels)

/-- The items of a stage, up to the end of the stage. -/
inductive Items (labels : Labels) where
  | nil
  | word (argument : Word) (rest : Items labels)
  | redirection (symbol : Redirection) (file : Word) (label : labels.redirection)
      (rest : Items labels)
  | substitution (link : labels.link) (body : Pipeline labels) (rest : Items labels)

/-- The stages after the first one. -/
inductive Next (labels : Labels) where
  | last
  | pipe (link : labels.link) (rest : Pipeline labels)

end

section Words

variable {labels : Labels}

mutual

/-- The words of a tree, from left to right. -/
def Pipeline.words : Pipeline labels → List CString
  | .mk name items next => name.text :: items.words ++ next.words

def Items.words : Items labels → List CString
  | .nil => []
  | .word argument rest => argument.text :: rest.words
  | .redirection symbol file _ rest => symbol.text :: file.text :: rest.words
  | .substitution _ body rest =>
      commandSubstitutionStart :: body.words ++ commandSubstitutionEnd :: rest.words

def Next.words : Next labels → List CString
  | .last => []
  | .pipe _ rest => pipeSymbol :: rest.words

end

mutual

/-- Redirections stand where they may: the standard input only in the first stage
of a pipeline, and only if `input` allows it there; the standard output only in
the last stage, and only if `output` allows it. A substitution's pipeline may
redirect the standard input of its first stage and no standard output. -/
def Pipeline.Placed (input output : Bool) : Pipeline labels → Prop
  | .mk _ items next => items.Placed input (output && next.isLast) ∧ next.Placed output

def Items.Placed (input output : Bool) : Items labels → Prop
  | .nil => True
  | .word _ rest => rest.Placed input output
  | .redirection symbol _ _ rest =>
      (symbol.stream = .stdin → input = true) ∧
        (symbol.stream = .stdout → output = true) ∧ rest.Placed input output
  | .substitution _ body rest => body.Placed true false ∧ rest.Placed input output

def Next.Placed (output : Bool) : Next labels → Prop
  | .last => True
  | .pipe _ rest => rest.Placed false output

def Next.isLast : Next labels → Bool
  | .last => true
  | .pipe _ _ => false

end

mutual

/-- The files of the redirections, from left to right. -/
def Pipeline.opens : Pipeline labels → List (CString × OpenMode)
  | .mk _ items next => items.opens ++ next.opens

def Items.opens : Items labels → List (CString × OpenMode)
  | .nil => []
  | .word _ rest => rest.opens
  | .redirection symbol file _ rest => (file.text, symbol.mode) :: rest.opens
  | .substitution _ body rest => body.opens ++ rest.opens

def Next.opens : Next labels → List (CString × OpenMode)
  | .last => []
  | .pipe _ rest => rest.opens

end

mutual

/-- The labels of the redirections, from left to right. -/
def Pipeline.redirections : Pipeline labels → List labels.redirection
  | .mk _ items next => items.redirections ++ next.redirections

def Items.redirections : Items labels → List labels.redirection
  | .nil => []
  | .word _ rest => rest.redirections
  | .redirection _ _ label rest => label :: rest.redirections
  | .substitution _ body rest => body.redirections ++ rest.redirections

def Next.redirections : Next labels → List labels.redirection
  | .last => []
  | .pipe _ rest => rest.redirections

end

mutual

/-- The links of a tree in the order in which the parser creates their pipes: a
substitution's before those inside it, a pipe symbol's after those to its right. -/
def Pipeline.links : Pipeline labels → List labels.link
  | .mk _ items next => items.links ++ next.links

def Items.links : Items labels → List labels.link
  | .nil => []
  | .word _ rest => rest.links
  | .redirection _ _ _ rest => rest.links
  | .substitution link body rest => link :: body.links ++ rest.links

def Next.links : Next labels → List labels.link
  | .last => []
  | .pipe link rest => rest.links ++ [link]

end

end Words

/-- The labels of the grammar: none. -/
abbrev Labels.plain : Labels := { redirection := Unit, link := Unit }

/-- The syntax tree of a command string. -/
abbrev Syntax := Pipeline Labels.plain

section Erase

variable {labels : Labels}

mutual

/-- The tree without its labels. -/
def Pipeline.erase : Pipeline labels → Pipeline Labels.plain
  | .mk name items next => .mk name items.erase next.erase

def Items.erase : Items labels → Items Labels.plain
  | .nil => .nil
  | .word argument rest => .word argument rest.erase
  | .redirection symbol file _ rest => .redirection symbol file () rest.erase
  | .substitution _ body rest => .substitution () body.erase rest.erase

def Next.erase : Next labels → Next Labels.plain
  | .last => .last
  | .pipe _ rest => .pipe () rest.erase

end

mutual

@[simp] theorem Pipeline.words_erase : ∀ tree : Pipeline labels, tree.erase.words = tree.words
  | .mk name items next => by
      simp only [Pipeline.erase, Pipeline.words, Items.words_erase items, Next.words_erase next]

@[simp] theorem Items.words_erase : ∀ items : Items labels, items.erase.words = items.words
  | .nil => rfl
  | .word argument rest => by simp only [Items.erase, Items.words, Items.words_erase rest]
  | .redirection symbol file label rest => by
      simp only [Items.erase, Items.words, Items.words_erase rest]
  | .substitution link body rest => by
      simp only [Items.erase, Items.words, Pipeline.words_erase body, Items.words_erase rest]

@[simp] theorem Next.words_erase : ∀ next : Next labels, next.erase.words = next.words
  | .last => rfl
  | .pipe link rest => by simp only [Next.erase, Next.words, Pipeline.words_erase rest]

end

@[simp] theorem Next.isLast_erase (next : Next labels) : next.erase.isLast = next.isLast := by
  cases next <;> rfl

mutual

theorem Pipeline.placed_erase : ∀ {input output : Bool} (tree : Pipeline labels),
    tree.erase.Placed input output ↔ tree.Placed input output
  | input, output, .mk name items next => by
      simp only [Pipeline.erase, Pipeline.Placed, Items.placed_erase items,
        Next.placed_erase next, Next.isLast_erase]

theorem Items.placed_erase : ∀ {input output : Bool} (items : Items labels),
    items.erase.Placed input output ↔ items.Placed input output
  | input, output, .nil => Iff.rfl
  | input, output, .word argument rest => by
      simp only [Items.erase, Items.Placed, Items.placed_erase rest]
  | input, output, .redirection symbol file label rest => by
      simp only [Items.erase, Items.Placed, Items.placed_erase rest]
  | input, output, .substitution link body rest => by
      simp only [Items.erase, Items.Placed, Pipeline.placed_erase body, Items.placed_erase rest]

theorem Next.placed_erase : ∀ {output : Bool} (next : Next labels),
    next.erase.Placed output ↔ next.Placed output
  | output, .last => Iff.rfl
  | output, .pipe link rest => by
      simp only [Next.erase, Next.Placed, Pipeline.placed_erase rest]

end

end Erase

/-! ## Wired trees -/

/-- The pipe of a link: its index in `open_pipes`, the serial number of the `pipe`
call that made it, and its two ends. -/
structure Link where
  index : Nat
  serial : Nat
  readEnd : Int
  writeEnd : Int
  deriving DecidableEq, Repr

def Link.ends (link : Link) : Int × Int := (link.readEnd, link.writeEnd)

def Link.descriptors (link : Link) : List Descriptor :=
  [⟨link.writeEnd, .pipeWrite link.serial⟩, ⟨link.readEnd, .pipeRead link.serial⟩]

/-- The labels of a wired tree: the descriptor a redirection opened, and the pipe
of a link. -/
abbrev Labels.wired : Labels := { redirection := Descriptor, link := Link }

/-- The descriptor of the last redirection of a stream among the items of a stage. -/
def Items.lastRedirection : Items Labels.wired → Stream → Option Descriptor
  | .nil, _ => none
  | .word _ rest, stream => rest.lastRedirection stream
  | .redirection symbol _ label rest, stream =>
      (rest.lastRedirection stream).or
        (if symbol.stream = stream then some label else none)
  | .substitution _ _ rest, stream => rest.lastRedirection stream

/-- The argument words of a stage; a substitution stands as the path of its read end. -/
def Items.arguments : Items Labels.wired → List CString
  | .nil => []
  | .word argument rest => argument.text :: rest.arguments
  | .redirection _ _ _ rest => rest.arguments
  | .substitution link _ rest => devFile link.readEnd :: rest.arguments

/-- The links of the substitutions that stand directly in a stage. -/
def Items.readLinks : Items Labels.wired → List Link
  | .nil => []
  | .word _ rest => rest.readLinks
  | .redirection _ _ _ rest => rest.readLinks
  | .substitution link _ rest => link :: rest.readLinks

/-- The call of a stage. A stream is that of its last redirection, else the end of
the pipe that links the stage to its neighbour, else the shell's. -/
def stageCall (name : Word) (items : Items Labels.wired) (commandString : CString)
    (input output : Option Link) : CommandCall :=
  { name := name.text
    argc := items.arguments.length + 1
    argv := name.text :: items.arguments
    commandString := removeExtraPipes 0 (trimSpaces commandString)
    readingPipes := items.readLinks.map (·.index) ++ (input.map (·.index)).toList
    writingPipes := (output.map (·.index)).toList
    stdin := (((items.lastRedirection .stdin).map (·.number)).or
      (input.map (·.readEnd))).getD stdinFileno
    stdout := (((items.lastRedirection .stdout).map (·.number)).or
      (output.map (·.writeEnd))).getD stdoutFileno
    stderr := ((items.lastRedirection .stderr).map (·.number)).getD stderrFileno }

/-- The link to the next stage. -/
def Next.link : Next Labels.wired → Option Link
  | .last => none
  | .pipe link _ => some link

mutual

/-- The calls of a tree, one for each stage, in the order in which the parser
builds them. `commandString` is the string the pipeline was parsed from, `input`
and `output` are the links to the neighbours of its two ends. -/
def Pipeline.calls (commandString : CString) (input output : Option Link) :
    Pipeline Labels.wired → List CommandCall
  | .mk name items next =>
      items.calls ++ next.calls output ++
        [stageCall name items commandString input (next.link.or output)]

def Items.calls : Items Labels.wired → List CommandCall
  | .nil => []
  | .word _ rest => rest.calls
  | .redirection _ _ _ rest => rest.calls
  | .substitution link body rest =>
      body.calls (joinStrings body.words [' ']) none (some link) ++ rest.calls

def Next.calls (output : Option Link) : Next Labels.wired → List CommandCall
  | .last => []
  | .pipe link rest => rest.calls (joinStrings rest.words [' ']) (some link) output

end

mutual

/-- The call of the last stage of a pipeline. -/
def Pipeline.lastCall (commandString : CString) (input output : Option Link) :
    Pipeline Labels.wired → CommandCall
  | .mk name items next => next.lastCall output (stageCall name items commandString input output)

/-- The same after a stage whose call, were it the last one, is `stage`. -/
def Next.lastCall (output : Option Link) (stage : CommandCall) : Next Labels.wired → CommandCall
  | .last => stage
  | .pipe link rest => rest.lastCall (joinStrings rest.words [' ']) (some link) output

end

section Size

variable {labels : Labels}

mutual

/-- The number of stages. -/
def Pipeline.size : Pipeline labels → Nat
  | .mk _ items next => items.size + next.size + 1

def Items.size : Items labels → Nat
  | .nil => 0
  | .word _ rest => rest.size
  | .redirection _ _ _ rest => rest.size
  | .substitution _ body rest => body.size + rest.size

def Next.size : Next labels → Nat
  | .last => 0
  | .pipe _ rest => rest.size

end

mutual

/-- The number of pipe symbols of a pipeline, those of its substitutions aside. -/
def Pipeline.pipes : Pipeline labels → Nat
  | .mk _ _ next => next.pipes

def Next.pipes : Next labels → Nat
  | .last => 0
  | .pipe _ rest => rest.pipes + 1

end

mutual

/-- The position of the last stage of the pipeline in the order of creation. -/
def Pipeline.lastPosition : Pipeline labels → Nat
  | .mk _ items next => items.size + next.lastPosition

def Next.lastPosition : Next labels → Nat
  | .last => 0
  | .pipe _ rest => rest.lastPosition

end

end Size

/-- The descriptors a choice for each stream holds. -/
def heldDescriptors (held : Stream → Option Descriptor) : List Descriptor :=
  (held .stdin).toList ++ (held .stdout).toList ++ (held .stderr).toList

/-- The descriptors a stage keeps open for its redirected streams. -/
def Items.redirected (items : Items Labels.wired) : List Descriptor :=
  heldDescriptors items.lastRedirection

mutual

/-- The descriptors of all redirected streams of a tree. -/
def Pipeline.files : Pipeline Labels.wired → List Descriptor
  | .mk _ items next => items.files ++ next.files ++ items.redirected

def Items.files : Items Labels.wired → List Descriptor
  | .nil => []
  | .word _ rest => rest.files
  | .redirection _ _ _ rest => rest.files
  | .substitution _ body rest => body.files ++ rest.files

def Next.files : Next Labels.wired → List Descriptor
  | .last => []
  | .pipe _ rest => rest.files

end

end Jsh
