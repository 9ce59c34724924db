import ChromeLight.Lib.Find
import ChromeLight.Pipeline
import Mathlib.Data.String.Basic

/-!
# Reftests

`crates/testshell/src/reftest.rs`: each page of a directory is rendered next to its reference, and the two pixmaps are compared
pixel by pixel. The directory, and what is written for someone who looks into a failure, go through `Host`.
-/

namespace ChromeLight

/-- `char::is_whitespace`. -/
def isWhitespace (c : Char) : Bool :=
  (0x09 ≤ c.val && c.val ≤ 0x0D) || (0x2000 ≤ c.val && c.val ≤ 0x200A) ||
    c.val ∈ [0x20, 0x85, 0xA0, 0x1680, 0x2028, 0x2029, 0x202F, 0x205F, 0x3000]

/-- `str::trim`. -/
def trim (text : StrTendril) : StrTendril := (text.dropWhile isWhitespace).rdropWhile isWhitespace

namespace Reftest

open Find (find)
open Gfx (Pixmap PremultipliedColorU8)

/-! ## Comparing pixmaps -/

/-- How many pixels of two pictures differ. -/
structure Diff where
  differingPixels : Nat
  width : UInt32
  height : UInt32
deriving DecidableEq, Repr

/-- Compare two pictures of one size. -/
def comparePixmaps (a b : Pixmap) : Except ShellError Diff :=
  if (a.width, a.height) ≠ (b.width, b.height) then .error (.sizeMismatch a.width a.height b.width b.height)
  else .ok { differingPixels := (a.pixels.zip b.pixels).countP fun p => p.1 ≠ p.2, width := a.width, height := a.height }

/-- A pixel that is the same in both. -/
def white : PremultipliedColorU8 := ⟨255, 255, 255, 255⟩

/-- A pixel that differs. -/
def red : PremultipliedColorU8 := ⟨255, 0, 0, 255⟩

/-- White where the pixmaps agree, and red where they differ. -/
def diffPixmap (a b : Pixmap) : Option Pixmap :=
  if h : (a.width, a.height) ≠ (b.width, b.height) then none
  else if a.width = 0 ∨ a.height = 0 then none
  else some {
    width := a.width
    height := a.height
    pixels := a.pixels.zipWith (fun x y => if x = y then white else red) b.pixels
    size := by
      obtain ⟨hwidth, hheight⟩ := Prod.mk.inj (not_not.1 h)
      rw [List.length_zipWith, a.size, b.size, hwidth, hheight, Nat.min_self] }

/-! ## Pairs -/

/-- How a pair came out. -/
inductive PairStatus where
  | pass
  | fail (reason : String)
  | knownFail (reason : String)
deriving DecidableEq, Repr

/-- A pair and how it came out. -/
structure PairResult where
  name : String
  status : PairStatus
deriving DecidableEq, Repr

namespace PairResult

/-- The pair counts against the run. -/
def isFailure (result : PairResult) : Bool :=
  match result.status with
  | .pass => false
  | _ => true

/-- The line that is printed. -/
def line (result : PairResult) : String :=
  match result.status with
  | .pass => "PASS " ++ result.name
  | .fail reason => "FAIL " ++ result.name ++ " (" ++ reason ++ ")"
  | .knownFail reason => "FAIL (known) " ++ result.name ++ " (" ++ reason ++ ")"

end PairResult

/-- What the harness asks of the directory and of the files in it, apart from rendering. -/
structure Host (ρ : Type) where
  join : ρ → String → ρ
  isFile : ρ → Bool
  /-- The text of a file that is UTF-8. -/
  readToString : ρ → Option StrTendril
  /-- The names in a directory, where they are UTF-8. -/
  readDir : ρ → Except String (List (Except String (Option String)))
  /-- Whether a directory is there in the end. -/
  createDirAll : ρ → Bool
  /-- `Debug` of strings. -/
  debug : String → String

/-- An image handed to `save_png`. -/
structure Artifact (ρ : Type) where
  path : ρ
  pixmap : Pixmap

/-- A pair that fails, known or not. -/
def finish (name : String) (knownFail : Option String) (reason : String) : PairResult :=
  match knownFail with
  | some marker => { name, status := .knownFail (reason ++ ": " ++ marker) }
  | none => { name, status := .fail reason }

section

variable {ρ : Type} (host : Host ρ)

/-- The reason of a `KNOWN-FAIL` comment. -/
def knownFailMarker (path : ρ) : Option String := do
  let text ← host.readToString path
  let marker := "KNOWN-FAIL:".toList
  let start ← find marker text
  let rest := text.drop (start + marker.length)
  let stop ← find "-->".toList rest
  let reason := trim (rest.take stop)
  if reason = [] then none else some (String.ofList reason)

/-- Save both pictures, and their diff. -/
def writeFailureArtifacts (failuresDir : ρ) (name : String) (test reference : Pixmap) : List (Artifact ρ) :=
  let dir := host.join failuresDir name
  if host.createDirAll dir then
    [⟨host.join dir "test.png", test⟩, ⟨host.join dir "ref.png", reference⟩] ++
      ((diffPixmap test reference).map fun diff => ⟨host.join dir "diff.png", diff⟩).toList
  else []

/-! ## The pages of a directory -/

/-- `Path::file_stem` and `Path::extension` of a file name: its parts around the last dot, unless there is nothing before it. -/
def splitFileAtDot (name : StrTendril) : StrTendril × Option StrTendril :=
  match name.reverse.span (· ≠ '.') with
  | (_, []) => (name, none)
  | (after, _ :: before) => if before = [] then (name, none) else (before.reverse, some after.reverse)

/-- The name of the pair, if the file is a page. -/
def pageStem (name : String) : Option String :=
  let (stem, extension) := splitFileAtDot name.toList
  if extension ≠ some "html".toList then none
  else if "-ref".toList <:+ stem then none
  else some (String.ofList stem)

/-- The pages among the entries of a directory. -/
def collectNames : List (Except String (Option String)) → Except ShellError (List String)
  | [] => .ok []
  | .error e :: _ => .error (.io e)
  | .ok name :: entries => (collectNames entries).map ((name.bind pageStem).toList ++ ·)

/-- The pages of a directory, sorted. -/
def discover (dir : ρ) : Except ShellError (List String) :=
  match host.readDir dir with
  | .error e => .error (.io e)
  | .ok entries => (collectNames entries).map fun names => names.mergeSort fun a b => decide (a ≤ b)

/-- Whether a name contains the filter, if there is one. -/
def selected (filter : Option String) (name : String) : Bool := filter.all fun f => f.toList <:+: name.toList

/-! ## Running -/

variable {υ ε δ : Type} [DecidableEq ε] [DecidableEq δ] (E : Engines υ ρ ε δ)

/-- The size at which pages are rendered. -/
def viewport : UInt32 × UInt32 := (800, 600)

/-- The result of a pair, and the images saved for it. -/
def runPair (dir : ρ) (failuresDir : ρ) (name : String) : Part (PairResult × List (Artifact ρ)) := do
  let page := host.join dir (name ++ ".html")
  let refPage := host.join dir (name ++ "-ref.html")
  let knownFail := knownFailMarker host page
  if !host.isFile refPage then return (finish name knownFail ("missing ref " ++ E.urls.display refPage), [])
  match ← E.renderFile page viewport.1 viewport.2 with
  | .error e => return (finish name knownFail ("render " ++ name ++ ".html: " ++ e.message host.debug), [])
  | .ok test =>
    match ← E.renderFile refPage viewport.1 viewport.2 with
    | .error e => return (finish name knownFail ("render " ++ name ++ "-ref.html: " ++ e.message host.debug), [])
    | .ok reference =>
      match comparePixmaps test.pixmap reference.pixmap with
      | .error e => return (finish name knownFail (e.message host.debug), [])
      | .ok diff =>
        if diff.differingPixels = 0 then return ({ name, status := .pass }, [])
        else return (finish name knownFail (toString diff.differingPixels ++ " differing"),
          writeFailureArtifacts host failuresDir name test.pixmap reference.pixmap)

/-- All pairs of a directory. -/
def run (dir : ρ) (filter : Option String) (failuresDir : ρ) : Part (Except ShellError (List (PairResult × List (Artifact ρ)))) :=
  match discover host dir with
  | .error e => .some (.error e)
  | .ok names => do return .ok (← (names.filter (selected filter)).mapM (runPair host E dir failuresDir))

end

/-- What the command prints, and the code it exits with. -/
def report (results : List PairResult) : List String × Nat :=
  let passed := results.countP fun result => !result.isFailure
  (results.map PairResult.line ++ ["== " ++ toString passed ++ "/" ++ toString results.length ++ " passed =="],
    if results.any PairResult.isFailure then 1 else 0)

end Reftest

end ChromeLight
