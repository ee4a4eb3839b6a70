import Blindfold.Lettering.Letter
import Blindfold.File

/-!
# Errors of a lettering

Why a lettering cannot be read or used, with the wording of each cause in `LabelError.message`.
-/

namespace Blindfold

/-- The two tables of a lettering. -/
inductive LabelTable where
  | labels
  | connections
deriving DecidableEq, Repr

def LabelTable.name : LabelTable → String
  | labels => "labels"
  | connections => "connections"

inductive LabelError where
  /-- A file cannot be read. -/
  | unreadable (path : String) (fault : FileFault)
  /-- A record of a file lacks a field or holds no number where one is due. -/
  | badRecord (path : String)
  | invalidLetter (text : String)
  | unknownPieceKind (text : String)
  | duplicateLetter (kind : PieceKind) (table : LabelTable) (letter : Letter)
  | missingLetter (kind : PieceKind) (table : LabelTable) (letter : Letter)
  /-- A letter is placed where no sticker is. -/
  | offCube (kind : PieceKind) (letter : Letter) (face row col : Nat)
  /-- A group has more or fewer letters than a piece has stickers. -/
  | groupSize (kind : PieceKind) (letters : String)
  /-- The solved colors of a group repeat, or are those of an earlier group. -/
  | ambiguousPiece (kind : PieceKind) (letters : String)
  /-- The colors now on a group are those of no piece. -/
  | unknownPiece (kind : PieceKind) (letters : String)
deriving DecidableEq, Repr

namespace LabelError

def message : LabelError → String
  | unreadable path fault => s!"File I/O error for '{path}': {fault.message}"
  | badRecord path => s!"CSV parsing error for '{path}'"
  | invalidLetter text => s!"'{text}' is not a letter between a and x"
  | unknownPieceKind text => s!"Unknown piece type '{text}', expected edge or corner"
  | duplicateLetter kind table letter =>
    s!"The {kind.name} {table.name} lists '{letter.toChar}' more than once"
  | missingLetter kind table letter =>
    s!"The {kind.name} {table.name} has no entry for '{letter.toChar}'"
  | offCube kind letter face row col =>
    s!"The {kind.name} sticker '{letter.toChar}' is off the cube: face {face} ({row}, {col})"
  | groupSize kind letters => s!"The {kind.name} group '{letters}' should have {kind.size} letters"
  | ambiguousPiece kind letters =>
    s!"The {kind.name} group '{letters}' has the colors of another piece"
  | unknownPiece kind letters =>
    s!"No {kind.name} piece has the colors now on stickers '{letters}'"

end LabelError

namespace Letter

/-- The letter of a character, or the character as an error. -/
def ofChar (c : Char) : Except LabelError Letter :=
  match ofChar? c with
  | some l => .ok l
  | none => .error (.invalidLetter c.toString)

def parse (text : String) : Except LabelError Letter :=
  match text.toList with
  | [c] => ofChar c
  | _ => .error (.invalidLetter text)

end Letter

/-- The kind that a word names, or the word as an error. -/
def PieceKind.parse (word : String) : Except LabelError PieceKind :=
  match ofString? word with
  | some kind => .ok kind
  | none => .error (.unknownPieceKind word)

end Blindfold
