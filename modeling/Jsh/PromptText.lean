import Jsh.JobTable
import Jsh.Prompt
import Jsh.ShellMoves

/-!
# The text of the prompt

The prompt is a sequence of coloured pieces. What is read on the screen is limited to
thirty characters, and the path is cut to leave room for the dots even when it fits
without them.
-/

set_option autoImplicit false

namespace Jsh

open Library

/-- A piece of the prompt: its colour code and its text. -/
structure Piece where
  color : CString
  text : CString
  deriving DecidableEq, Repr

/-- The bytes of the pieces. -/
def coloredPieces (pieces : List Piece) : CString :=
  (pieces.map fun piece => colored piece.color piece.text).flatten

/-- What is left of the pieces without their colours. -/
def plainPieces (pieces : List Piece) : CString := (pieces.map (·.text)).flatten

def redCode : CString := '\x1b' :: "[0;31m".toList
def greenCode : CString := '\x1b' :: "[0;32m".toList
def yellowCode : CString := '\x1b' :: "[0;33m".toList
def blueCode : CString := '\x1b' :: "[0;34m".toList

/-- `total_jobs` of `get_prompt_string` -/
def jobCounter (table : JobTable) : CString := "[".toList ++ decimal table.size ++ "]".toList

/-- The number of jobs is that of the pointers in an array, and takes 19 digits at most. -/
theorem jobCounter_length_le {table : JobTable} (size : table.size < 2 ^ 63) :
    (jobCounter table).length ≤ 21 := by
  have digits : (Nat.toDigits 10 table.size).length ≤ 19 :=
    (Nat.length_toDigits_le_iff (by decide) (by decide)).mpr (by omega)
  have shown : decimal table.size = Nat.toDigits 10 table.size := rfl
  simp only [jobCounter, shown, List.length_append, String.length_toList]
  have one : "[".length = 1 := rfl
  have other : "]".length = 1 := rfl
  omega

/-- The subtraction of `get_prompt_string` does not wrap. -/
theorem maxPathSize_eq {counter : CString} (short : counter.length ≤ 25) :
    maxPathSize counter = 25 - counter.length := by
  have dots : "...".length = 3 := rfl
  have dollar : "$ ".length = 2 := rfl
  simp only [maxPathSize, limitPromptSize, dots, dollar]
  omega

/-- The pieces of the path. -/
def pathPieces (maxSize : Nat) (path : CString) : List Piece :=
  if path.length > maxSize then [⟨blueCode, "...".toList⟩, ⟨blueCode, truncStart path maxSize⟩]
  else [⟨blueCode, path⟩]

/-- The pieces of the prompt shown in a shell. -/
def promptPieces (shell : Shell) : List Piece :=
  ⟨yellowCode, jobCounter shell.control.table⟩ ::
    pathPieces (maxPathSize (jobCounter shell.control.table)) shell.cwd ++
    [⟨if shell.lastExitCode ≠ 0 then redCode else greenCode, "$ ".toList⟩]

/-- The prompt, when the two calls of `getcwd` succeed. -/
theorem getPromptString_run {environment : Environment} {shell : Shell}
    (first : environment.getcwdError shell.control.calls = none)
    (second : environment.getcwdError (shell.control.calls + 1) = none) :
    ∃ finish, getPromptString environment shell =
      .ok (coloredPieces (promptPieces shell)) finish := by
  have again : getCurrentWd environment shell.called = .ok (shell.cwd, true) shell.called.called :=
    @getCurrentWd_run environment shell.called second
  have counter : "[".toList ++ decimal shell.control.table.size ++ "]".toList =
      jobCounter shell.control.table := rfl
  rw [getPromptString, bind_of_ok (get_apply shell)]
  simp only [counter]
  rw [bind_of_ok (getCurrentWd_run first)]
  by_cases long : shell.cwd.length > maxPathSize (jobCounter shell.control.table)
  · simp only [long, if_true]
    refine ⟨shell.called.called, (bind_of_ok again).trans ?_⟩
    rw [bind_of_ok (pure_apply _ _), pure_apply]
    by_cases failed : shell.lastExitCode = 0 <;>
      simp [promptPieces, pathPieces, long, coloredPieces, failed, inRed, inGreen, inYellow, inBlue,
        redCode, greenCode, yellowCode, blueCode]
  · simp only [long, if_false]
    refine ⟨shell.called, ?_⟩
    rw [bind_of_ok (pure_apply _ _), if_pos trivial, pure_apply]
    by_cases failed : shell.lastExitCode = 0 <;>
      simp [promptPieces, pathPieces, long, coloredPieces, failed, inRed, inGreen, inYellow, inBlue,
        redCode, greenCode, yellowCode, blueCode]

/-- What the prompt should show: the whole path if that takes thirty characters at most,
and otherwise dots and the end of the path, thirty characters in all. -/
def ShowsPath (counter path text : CString) : Prop :=
  ((counter ++ path ++ "$ ".toList).length ≤ limitPromptSize →
      text = counter ++ path ++ "$ ".toList) ∧
    (limitPromptSize < (counter ++ path ++ "$ ".toList).length →
      text.length = limitPromptSize ∧
        ∃ suffix, suffix <:+ path ∧ text = counter ++ "...".toList ++ suffix ++ "$ ".toList)

theorem plainPieces_promptPieces (shell : Shell) :
    plainPieces (promptPieces shell) =
      jobCounter shell.control.table ++
        (if shell.cwd.length > maxPathSize (jobCounter shell.control.table) then
          "...".toList ++ truncStart shell.cwd (maxPathSize (jobCounter shell.control.table))
        else shell.cwd) ++ "$ ".toList := by
  unfold promptPieces pathPieces plainPieces
  split <;> simp

theorem promptPieces_color (shell : Shell) : ∀ piece ∈ promptPieces shell,
    piece.color ∈ [redCode, greenCode, yellowCode, blueCode] ∧ piece.color.length = 7 := by
  have lengths : ∀ code ∈ [redCode, greenCode, yellowCode, blueCode], code.length = 7 := by decide
  have known : ∀ piece ∈ promptPieces shell,
      piece.color ∈ [redCode, greenCode, yellowCode, blueCode] := by
    unfold promptPieces pathPieces
    split <;> split <;> simp
  exact fun piece member => ⟨known piece member, lengths _ (known piece member)⟩

theorem promptPieces_length_le (shell : Shell) : (promptPieces shell).length ≤ 4 := by
  unfold promptPieces pathPieces
  split <;> simp

/-- A colour adds thirteen bytes to a piece. -/
theorem coloredPieces_length {pieces : List Piece}
    (colors : ∀ piece ∈ pieces, piece.color.length = 7) :
    (coloredPieces pieces).length = (plainPieces pieces).length + 13 * pieces.length := by
  induction pieces with
  | nil => rfl
  | cons piece pieces ih =>
      have first := colors piece (.head _)
      have others := ih fun other member => colors other (.tail _ member)
      have reset : "[0m".length = 3 := rfl
      have one : (colored piece.color piece.text).length = piece.text.length + 13 := by
        simp only [colored, List.length_append, List.length_cons, first, String.length_toList]
        omega
      simp only [coloredPieces, plainPieces, List.map_cons, List.flatten_cons, List.length_append,
        List.length_cons] at others ⊢
      omega

theorem truncStart_length_le (string : CString) (toKeep : Nat) :
    (truncStart string toKeep).length ≤ toKeep := by
  unfold truncStart
  split
  · assumption
  · rw [List.length_drop]
    omega

/-- What is read of the prompt takes thirty characters at most. -/
theorem plainPieces_length_le {shell : Shell}
    (short : (jobCounter shell.control.table).length ≤ 21) :
    (plainPieces (promptPieces shell)).length ≤ limitPromptSize := by
  have room := maxPathSize_eq (show (jobCounter shell.control.table).length ≤ 25 by omega)
  have kept := truncStart_length_le shell.cwd (maxPathSize (jobCounter shell.control.table))
  have dots : "...".length = 3 := rfl
  have dollar : "$ ".length = 2 := rfl
  rw [plainPieces_promptPieces, limitPromptSize]
  split <;> simp only [List.length_append, String.length_toList] <;> omega

theorem showsPath_iff {counter path : CString} (short : counter.length ≤ 21) :
    ShowsPath counter path (counter ++
        (if path.length > maxPathSize counter then
          "...".toList ++ truncStart path (maxPathSize counter)
        else path) ++ "$ ".toList) ↔
      counter.length + path.length ≤ 25 ∨ 28 < counter.length + path.length ∨
        counter.length + path.length = 28 ∧ "...".toList <+: path := by
  have dots : "...".length = 3 := rfl
  have dollar : "$ ".length = 2 := rfl
  rw [maxPathSize_eq (by omega)]
  by_cases long : path.length > 25 - counter.length
  · have kept : truncStart path (25 - counter.length) =
        path.drop (path.length - (25 - counter.length)) := by
      rw [truncStart, if_neg (by omega)]
    have whole : (counter ++ path ++ "$ ".toList).length = counter.length + path.length + 2 := by
      simp [Nat.add_assoc]
    rw [if_pos long, kept, ShowsPath, whole, limitPromptSize]
    by_cases exceeds : 28 < counter.length + path.length
    · refine iff_of_true ⟨fun fits => by omega, fun _ => ⟨?_,
        path.drop (path.length - (25 - counter.length)), List.drop_suffix _ path, ?_⟩⟩
        (.inr (.inl exceeds))
      · simp only [List.length_append, List.length_drop, String.length_toList]
        omega
      · rw [← List.append_assoc]
    · have same : counter ++ ("...".toList ++ path.drop (path.length - (25 - counter.length))) ++
          "$ ".toList = counter ++ path ++ "$ ".toList ↔
            "...".toList ++ path.drop (path.length - (25 - counter.length)) = path := by
        rw [List.append_cancel_right_eq, List.append_cancel_left_eq]
      have dotted : "...".toList ++ path.drop (path.length - (25 - counter.length)) = path ↔
          counter.length + path.length = 28 ∧ "...".toList <+: path := by
        constructor
        · intro equal
          have lengths := congrArg List.length equal
          simp only [List.length_append, List.length_drop, String.length_toList] at lengths
          exact ⟨by omega, _, equal⟩
        · rintro ⟨exactly, rest, shape⟩
          have three : path.length - (25 - counter.length) = "...".toList.length := by
            rw [String.length_toList]
            omega
          rw [three, ← shape, List.drop_left]
      rw [same, dotted]
      constructor
      · intro shows
        exact .inr (.inr (shows.1 (by omega)))
      · intro fits
        refine ⟨fun _ => ?_, fun tooLong => by omega⟩
        cases fits with
        | inl small => exact absurd small (by omega)
        | inr exactly => exact exactly.resolve_left exceeds
  · rw [if_neg long]
    refine iff_of_true ⟨fun _ => rfl, fun exceeds => ?_⟩ (.inl (by omega))
    simp only [limitPromptSize, List.length_append, String.length_toList] at exceeds
    omega

/-- The prompt is made of four coloured pieces at most, and fits in its buffer. It shows
the path as it should unless the path fits in thirty characters without the dots but not
with them. -/
theorem prompt_shows_path_iff {environment : Environment} {shell : Shell}
    (first : environment.getcwdError shell.control.calls = none)
    (second : environment.getcwdError (shell.control.calls + 1) = none)
    (size : shell.control.table.size < 2 ^ 63) :
    ∃ finish pieces, getPromptString environment shell = .ok (coloredPieces pieces) finish ∧
      (∀ piece ∈ pieces, piece.color ∈ [redCode, greenCode, yellowCode, blueCode]) ∧
      maxPathSize (jobCounter shell.control.table) + (jobCounter shell.control.table).length +
          "...".length + "$ ".length = limitPromptSize ∧
      (coloredPieces pieces).length + 1 ≤ 3 * limitPromptSize ∧
      (ShowsPath (jobCounter shell.control.table) shell.cwd (plainPieces pieces) ↔
        (jobCounter shell.control.table).length + shell.cwd.length ≤ 25 ∨
          28 < (jobCounter shell.control.table).length + shell.cwd.length ∨
          (jobCounter shell.control.table).length + shell.cwd.length = 28 ∧
            "...".toList <+: shell.cwd) := by
  obtain ⟨finish, ran⟩ := getPromptString_run first second
  have short := jobCounter_length_le size
  have room := maxPathSize_eq (show (jobCounter shell.control.table).length ≤ 25 by omega)
  have dots : "...".length = 3 := rfl
  have dollar : "$ ".length = 2 := rfl
  refine ⟨finish, promptPieces shell, ran, ?_, ?_, ?_, ?_⟩
  · intro piece member
    obtain ⟨known, _⟩ := promptPieces_color shell piece member
    exact known
  · simp only [room, dots, dollar, limitPromptSize]
    omega
  · have bytes := coloredPieces_length fun piece member => (promptPieces_color shell piece member).2
    have few := promptPieces_length_le shell
    have read := plainPieces_length_le short
    rw [limitPromptSize] at read ⊢
    omega
  · rw [plainPieces_promptPieces]
    exact showsPath_iff short

theorem short_path_shown :
    ∃ finish pieces, getPromptString Environment.exiting (initInternals "/home/titi".toList) =
        .ok (coloredPieces pieces) finish ∧
      ShowsPath "[0]".toList "/home/titi".toList (plainPieces pieces) := by
  obtain ⟨finish, pieces, ran, _, _, _, shows⟩ :=
    @prompt_shows_path_iff Environment.exiting (initInternals "/home/titi".toList) rfl rfl
      (by decide)
  exact ⟨finish, pieces, ran, shows.mpr (by decide)⟩

/-- With the counter and the dollar the path takes 29 characters, and is cut. -/
theorem documented_path_cut :
    ∃ finish pieces, getPromptString Environment.exiting
        (initInternals "/home/titi/pas/trop/long".toList) = .ok (coloredPieces pieces) finish ∧
      plainPieces pieces = "[0]...ome/titi/pas/trop/long$ ".toList ∧
      ¬ ShowsPath "[0]".toList "/home/titi/pas/trop/long".toList (plainPieces pieces) := by
  have cut : plainPieces (promptPieces (initInternals "/home/titi/pas/trop/long".toList)) =
      "[0]...ome/titi/pas/trop/long$ ".toList := by decide +kernel
  refine ⟨_, promptPieces (initInternals "/home/titi/pas/trop/long".toList), rfl, cut, ?_⟩
  intro shows
  rw [cut] at shows
  exact absurd (shows.1 (by decide)) (by decide)

end Jsh
