import Blindfold.Csv.Reading
import Blindfold.Sheet.Layout
import Blindfold.File

/-!
# Reading sheets

A sheet is a file of comma-separated records, one for each row. The cells are kept as they are. Each must
be UTF-8 by itself, after its quotes are taken off.
-/

namespace Blindfold

inductive SheetFileError where
  | cannotOpen (path : String)
  | cannotRead (path : String)
deriving DecidableEq, Repr

def SheetFileError.message : SheetFileError → String
  | cannotOpen path => s!"Failed to open sheet {path}"
  | cannotRead path => s!"Failed to read sheet {path}"

namespace Grid

/-- Sheets have no header for the reader, and their rows may differ in length. -/
def csvSettings : Csv.Settings := { hasHeader := false, isFlexible := true }

/-- The text that a field encodes. -/
def decodeField? (field : List UInt8) : Option (List Char) :=
  (String.fromUTF8? ⟨field.toArray⟩).map String.toList

def decode? (bytes : ByteArray) : Option Grid :=
  (csvSettings.read? decodeField? bytes.data.toList).map (·.map (·.map String.ofList))

/-- Reads the sheet at a path. A directory can be opened but not read. -/
def load {m : Type → Type} [Monad m] (files : FileReader m) (path : String) :
    ExceptT SheetFileError m Grid := do
  match ← files path with
  | .ok bytes =>
    match decode? bytes with
    | some rows => return rows
    | none => throw (.cannotRead path)
  | .error .isDirectory => throw (.cannotRead path)
  | .error _ => throw (.cannotOpen path)

end Grid
end Blindfold
