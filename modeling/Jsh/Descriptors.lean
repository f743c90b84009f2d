import Mathlib.Data.Int.Notation
import Jsh.Library.FirstUnused
import Jsh.StringUtils

/-!
# File descriptors

The descriptor table of the shell process with the system calls the shell makes
on it, and the integer sets of `utils.c` through which it closes descriptors. A
descriptor number is a C `int`; -1 stands for an unset one.
-/

set_option autoImplicit false

namespace Jsh

def stdinFileno : Int := 0
def stdoutFileno : Int := 1
def stderrFileno : Int := 2

/-- The `open` flags of the redirections. -/
inductive OpenMode where
  /-- `O_RDONLY` -/
  | readOnly
  /-- `O_WRONLY | O_CREAT | O_EXCL` -/
  | createNew
  /-- `O_WRONLY | O_CREAT | O_TRUNC` -/
  | truncate
  /-- `O_WRONLY | O_CREAT | O_APPEND` -/
  | append
  deriving DecidableEq, Repr

/-- What a descriptor refers to. Serial numbers tell apart the objects made by
different calls of `open` and `pipe`. -/
inductive OpenFile where
  | inherited (serial : Nat)
  | file (serial : Nat)
  | pipeRead (serial : Nat)
  | pipeWrite (serial : Nat)
  deriving DecidableEq, Repr

structure Descriptor where
  number : Int
  file : OpenFile
  deriving DecidableEq, Repr

inductive Stream where
  | stdin
  | stdout
  | stderr
  deriving DecidableEq, Repr

/-- `int fds[3]`. -/
structure Fds where
  stdin : Int
  stdout : Int
  stderr : Int
  deriving DecidableEq, Repr

def Fds.get (fds : Fds) : Stream → Int
  | .stdin => fds.stdin
  | .stdout => fds.stdout
  | .stderr => fds.stderr

def Fds.set (fds : Fds) (stream : Stream) (fd : Int) : Fds :=
  match stream with
  | .stdin => { fds with stdin := fd }
  | .stdout => { fds with stdout := fd }
  | .stderr => { fds with stderr := fd }

def Fds.toList (fds : Fds) : List Int := [fds.stdin, fds.stdout, fds.stderr]

/-- The outcomes of the calls of `open` and `pipe`, by the number of earlier calls
of the same function: the text of `strerror` when an `open` fails. `freed` is what
the descriptor fields of a command call hold when they are read after it has been
freed, by the number of the call; nothing is known about it. -/
structure FileOutcomes where
  openError : Nat → Option CString
  pipeSucceeds : Nat → Bool
  freed : Nat → Fds

/-- The open descriptors, the `open` calls made so far and the number of `pipe`
calls made so far. -/
structure Kernel where
  descriptors : List Descriptor
  opens : List (CString × OpenMode)
  pipes : Nat
  deriving DecidableEq, Repr

def Kernel.numbers (kernel : Kernel) : List Int := kernel.descriptors.map (·.number)

/-- The lowest descriptor number not in use. -/
def lowestFree (numbers : List Int) : Int := Library.firstUnused (fun index => (index : Int)) numbers

/-- `open(2)`. -/
def Kernel.openFile (outcomes : FileOutcomes) (kernel : Kernel) (path : CString)
    (mode : OpenMode) : Except CString Int × Kernel :=
  let serial := kernel.opens.length
  let opens := kernel.opens ++ [(path, mode)]
  match outcomes.openError serial with
  | some error => (.error error, { kernel with opens })
  | none =>
      let fd := lowestFree kernel.numbers
      (.ok fd, { kernel with opens, descriptors := ⟨fd, .file serial⟩ :: kernel.descriptors })

/-- `pipe(2)`: the read end and the write end. -/
def Kernel.pipe (outcomes : FileOutcomes) (kernel : Kernel) : Option (Int × Int) × Kernel :=
  let serial := kernel.pipes
  if outcomes.pipeSucceeds serial then
    let readEnd := lowestFree kernel.numbers
    let writeEnd := lowestFree (readEnd :: kernel.numbers)
    (some (readEnd, writeEnd),
      { kernel with
        pipes := serial + 1
        descriptors := ⟨writeEnd, .pipeWrite serial⟩ :: ⟨readEnd, .pipeRead serial⟩ ::
          kernel.descriptors })
  else (none, { kernel with pipes := serial + 1 })

/-- `close(2)`; closing a number that is not open has no effect. -/
def Kernel.close (kernel : Kernel) (fd : Int) : Kernel :=
  { kernel with descriptors := kernel.descriptors.filter fun descriptor => descriptor.number ≠ fd }

/-- `dup2(2)`, which has no effect when `oldfd` is not open. -/
def Kernel.dup2 (kernel : Kernel) (oldfd newfd : Int) : Kernel :=
  match kernel.descriptors.find? (·.number == oldfd) with
  | none => kernel
  | some descriptor =>
      if oldfd = newfd then kernel
      else
        { kernel with
          descriptors := ⟨newfd, descriptor.file⟩ :: (kernel.close newfd).descriptors }

/-! ## Sets of integers -/

/-- `add_set`: the array and the returned status. -/
def addSet (set : List Int) (value : Int) : List Int × Int :=
  match set with
  | [] => ([], -1)
  | slot :: rest =>
      if slot < 0 then (value :: rest, 0)
      else if slot = value then (slot :: rest, -1)
      else
        let (rest, status) := addSet rest value
        (slot :: rest, status)

/-- `remove_set`: the array and the returned status. -/
def removeSet (set : List Int) (value : Int) : List Int × Int :=
  match set with
  | [] => ([], -1)
  | slot :: rest =>
      if slot = value then (-1 :: rest, 0)
      else
        let (rest, status) := removeSet rest value
        (slot :: rest, status)

/-- `contains`. -/
def contains (set : List Int) (value : Int) : Bool := set.any (· == value)

/-- `contains2` on an array of pairs. -/
def contains2 (array : List (Int × Int)) (value : Int) : Bool :=
  array.any fun pair => pair.1 == value || pair.2 == value

/-- An array of `size` slots set to -1, after one `add_set` for each value. -/
def fillSet (size : Nat) (values : List Int) : List Int :=
  values.foldl (fun set value => (addSet set value).1) (List.replicate size (-1))

/-- The arguments of the calls of `close` that `close_unused_file_descriptors_from_array`
makes, in order. -/
def closeCalls (fdsToClose : List Int) : List Int :=
  (fillSet fdsToClose.length fdsToClose).foldl
    (fun calls fd => if fd > 2 then calls ++ [fd] else calls) []

/-- `close_unused_file_descriptors_from_array`. -/
def closeUnusedFileDescriptorsFromArray (kernel : Kernel) (fdsToClose : List Int) : Kernel :=
  (closeCalls fdsToClose).foldl Kernel.close kernel

end Jsh
