import Blindfold.Lettering.Chart
import Blindfold.Lettering.File
import Blindfold.Toml.Document

/-!
# Settings

A settings file may name the buffers and the label files. All of it is optional, but nothing else may be
in it.
-/

namespace Blindfold

structure Settings where
  edgeBuffer : Option Letter
  cornerBuffer : Option Letter
  /-- The label files to use instead of the Speffz scheme. -/
  labels : Option LabelPaths
deriving DecidableEq, Repr

inductive SettingsError where
  | cannotRead (path : String)
  | cannotParse (path : String)
deriving DecidableEq, Repr

def SettingsError.message : SettingsError → String
  | cannotRead path => s!"Failed to read configuration file {path}"
  | cannotParse path => s!"Failed to parse configuration file {path}"

namespace Toml.Value

def text? : Value → Option String
  | text s => some s
  | _ => none

/-- The letter that a text of one character names. -/
def letter? : Value → Option Letter
  | text s => match s.toList with
    | [c] => Letter.ofChar? c
    | _ => none
  | _ => none

mutual

/-- Every number in the value can be read. -/
def isReadable : Value → Bool
  | text _ => true
  | scalar => true
  | unreadable => false
  | array elements => areReadable elements
  | table _ entries => haveReadable entries
  | tables earlier last => tablesHaveReadable earlier && haveReadable last

def areReadable : List Value → Bool
  | [] => true
  | v :: rest => v.isReadable && areReadable rest

def haveReadable : List (String × Value) → Bool
  | [] => true
  | (_, v) :: rest => v.isReadable && haveReadable rest

def tablesHaveReadable : List (List (String × Value)) → Bool
  | [] => true
  | entries :: rest => haveReadable entries && tablesHaveReadable rest

end

/-- The label files that a table names, or that an array lists in a fixed order. A table may have further
keys, and an array further elements. -/
def labelPaths? : Value → Option LabelPaths
  | table _ entries => do
    let path (key : String) := (entries.lookup key).bind text?
    let paths : LabelPaths := {
      edgeLabels := ← path "edge_labels"
      cornerLabels := ← path "corner_labels"
      edgeConnections := ← path "edge_connections"
      cornerConnections := ← path "corner_connections" }
    if haveReadable entries then some paths else none
  | array (edgeLabels :: cornerLabels :: edgeConnections :: cornerConnections :: _) => do
    return {
      edgeLabels := ← edgeLabels.text?
      cornerLabels := ← cornerLabels.text?
      edgeConnections := ← edgeConnections.text?
      cornerConnections := ← cornerConnections.text? }
  | _ => none

end Toml.Value

namespace Settings

def unset : Settings := ⟨none, none, none⟩

/-- The settings after one key with its value. -/
def set (s : Settings) (key : String) (v : Toml.Value) : Option Settings :=
  match key with
  | "edge_buffer" => v.letter?.map fun l => { s with edgeBuffer := some l }
  | "corner_buffer" => v.letter?.map fun l => { s with cornerBuffer := some l }
  | "labels" => v.labelPaths?.map fun paths => { s with labels := some paths }
  | _ => none

/-- The settings that a text describes. -/
def parse? (text : String) : Option Settings := do
  (← Toml.parse? text).foldlM (fun s (key, v) => s.set key v) unset

/-- The buffer for a kind of pieces: the chosen one, else the one that is set, else `c`. -/
def buffer (s : Settings) (kind : PieceKind) (chosen : Option Letter) : Letter :=
  let configured := match kind with
    | .edge => s.edgeBuffer
    | .corner => s.cornerBuffer
  (chosen.or configured).getD Letter.defaultBuffer

variable {m : Type → Type} [Monad m]

def load (files : FileReader m) (path : String) : ExceptT SettingsError m Settings := do
  match ← files.text path with
  | .error _ => throw (.cannotRead path)
  | .ok text =>
    match parse? text with
    | some s => return s
    | none => throw (.cannotParse path)

/-- The lettering that is set, or the Speffz scheme. -/
def lettering (s : Settings) (files : FileReader m) : ExceptT LabelError m Lettering := do
  let scheme ← match s.labels with
    | some paths => Scheme.load files paths
    | none => pure .speffz
  Lettering.build scheme

end Settings
end Blindfold
