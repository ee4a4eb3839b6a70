import Blindfold.Lettering.Chart

/-!
# Sheet layouts

A sheet has a cell for every pair of targets: the second target heads the row and the first the column. It
may have a header row and column, and it may keep the rows and columns of the buffer's own letters.
-/

namespace Blindfold

abbrev Grid := List (List String)

structure Layout where
  buffer : Letter
  kind : PieceKind
  /-- The first row and the first column are headers. -/
  hasHeaders : Bool
  /-- The letters of the buffer's piece have rows and columns too. -/
  keepsBufferGroups : Bool
deriving DecidableEq, Repr

inductive ShapeError where
  | rowCount (found expected : Nat)
  | columnCount (row found expected : Nat)
deriving DecidableEq, Repr

namespace ShapeError

def hint : String :=
  "Check whether the sheet has headers or empty rows and columns for the buffer piece"

def message : ShapeError → String
  | rowCount found expected => s!"Sheet has {found} rows, but {expected} were expected. {hint}"
  | columnCount row found expected =>
    s!"Row {row} has {found} columns, but {expected} were expected. {hint}"

end ShapeError

/-- A cell and the targets that it is filed under. -/
structure Cell where
  target1 : Letter
  target2 : Letter
  text : String
deriving DecidableEq, Repr

namespace Layout

/-- The number of header rows, and of header columns. -/
def headerCount (y : Layout) : Nat := if y.hasHeaders then 1 else 0

/-- The number of rows, and of columns in every row below the header. -/
def dimension (y : Layout) : Nat :=
  24 - (if y.keepsBufferGroups then 0 else y.kind.size) + y.headerCount

/-- The first row below the header that has the wrong length. -/
def firstBadRow? (y : Layout) (rows : Grid) : Option (List String × Nat) :=
  (rows.zipIdx.drop y.headerCount).find? fun (row, _) => row.length ≠ y.dimension

/-- Checks the number of rows and then the length of each; a header row may have any length. -/
def checkShape (y : Layout) (rows : Grid) : Except ShapeError Unit :=
  if rows.length ≠ y.dimension then .error (.rowCount rows.length y.dimension)
  else match y.firstBadRow? rows with
    | some (row, i) => .error (.columnCount i row.length y.dimension)
    | none => .ok ()

/-- The letter is on the buffer's piece. -/
def isBuffer (y : Layout) (t : Chart) (l : Letter) : Bool := t.areRelated y.buffer l

/-- The letters that head the rows and columns below the header. -/
def headings (y : Layout) (t : Chart) : List Letter :=
  if y.keepsBufferGroups then Letter.all else Letter.all.filter (! y.isBuffer t ·)

/-- The targets, each with the place of its row and column below the header. -/
def slots (y : Layout) (t : Chart) : List (Letter × Nat) :=
  (y.headings t).zipIdx.filter fun (l, _) => ! y.isBuffer t l

def textAt? (y : Layout) (rows : Grid) (row col : Nat) : Option String :=
  rows[y.headerCount + row]?.bind (·[y.headerCount + col]?)

/-- The cells of all pairs of targets, by first and then by second target. -/
def cells (y : Layout) (t : Chart) (rows : Grid) : List Cell :=
  (y.slots t).flatMap fun (target1, col) => (y.slots t).map fun (target2, row) =>
    { target1, target2, text := (y.textAt? rows row col).getD "" }

end Layout
end Blindfold
