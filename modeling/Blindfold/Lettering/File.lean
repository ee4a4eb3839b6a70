import Blindfold.Csv.Reading
import Blindfold.Lettering.Error
import Blindfold.Lettering.Scheme
import Blindfold.Text.Numeral

/-!
# Reading label files

A scheme is read from four files of comma-separated records without a header. Fields are trimmed. A record
of a label file is a letter with the numbers of a face, a row and a column; a record of a connection file
is a group of letters.
-/

namespace Blindfold

structure LabelPaths where
  edgeLabels : String
  cornerLabels : String
  edgeConnections : String
  cornerConnections : String
deriving DecidableEq, Repr

namespace Scheme

def csvSettings : Csv.Settings := { hasHeader := false, isFlexible := true, trims := true }

def readRecords (path text : String) : Except LabelError (List (List (List Char))) :=
  match csvSettings.read? some text.toList with
  | some records => .ok records
  | none => .error (.badRecord path)

/-- Reads a letter and three numbers; further fields are ignored. -/
def readPlacement? : List (List Char) → Option Placement
  | [letter] :: face :: row :: col :: _ => do
    return ⟨letter, ← Text.anyCount? face, ← Text.anyCount? row, ← Text.anyCount? col⟩
  | _ => none

def readPlacements (path text : String) : Except LabelError (List Placement) := do
  match (← readRecords path text).mapM readPlacement? with
  | some placements => return placements
  | none => throw (.badRecord path)

/-- Reads a field that holds one character. -/
def readGroupLetter : List Char → Except LabelError Char
  | [c] => .ok c
  | field => .error (.invalidLetter (String.ofList field))

def readGroups (path text : String) : Except LabelError (List (List Char)) := do
  (← readRecords path text).mapM (·.mapM readGroupLetter)

variable {m : Type → Type} [Monad m]

/-- Reads a file and then its text. -/
def loadFile {α : Type} (files : FileReader m) (path : String)
    (read : String → Except LabelError α) : ExceptT LabelError m α := do
  match ← files.text path with
  | .ok text => read text
  | .error fault => throw (.unreadable path fault)

/-- Reads the four files, those of the edges first; the first error wins. -/
def load (files : FileReader m) (paths : LabelPaths) : ExceptT LabelError m Scheme := do
  let edgeLabels ← loadFile files paths.edgeLabels (readPlacements paths.edgeLabels)
  let edgeGroups ← loadFile files paths.edgeConnections (readGroups paths.edgeConnections)
  let cornerLabels ← loadFile files paths.cornerLabels (readPlacements paths.cornerLabels)
  let cornerGroups ← loadFile files paths.cornerConnections (readGroups paths.cornerConnections)
  return { edges := ⟨edgeLabels, edgeGroups⟩, corners := ⟨cornerLabels, cornerGroups⟩ }

end Scheme
end Blindfold
