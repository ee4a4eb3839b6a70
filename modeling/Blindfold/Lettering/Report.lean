import Blindfold.Lettering.Chart

/-!
# Reports

A report says for every letter which letter's sticker is now there. It is read off the colors alone: the
colors on a group name the piece, and each color then names a sticker of that piece.
-/

namespace Blindfold

/-- For every letter, the letter whose sticker is now there. -/
structure Report where
  letters : Vector Letter 24
deriving DecidableEq, Repr

namespace Report

/-- The letter whose sticker is now at `l`. -/
def get (r : Report) (l : Letter) : Letter := Letter.entry r.letters l

def isFixed (r : Report) (l : Letter) : Bool := r.get l = l

def isIdentity (r : Report) : Bool := Letter.all.all r.isFixed

/-- The report with given entries; letters without one are at home. -/
def ofEntries (entries : List (Letter × Letter)) : Report :=
  ⟨Vector.ofFn fun l => (entries.lookup l).getD l⟩

/-- The 24 letters in order of place. -/
def text (r : Report) : String := Letter.textOf r.letters.toList

@[simp]
theorem get_ofEntries (entries : List (Letter × Letter)) (l : Letter) :
    (ofEntries entries).get l = (entries.lookup l).getD l := by
  simp [get, ofEntries]

end Report

namespace Chart

/-- The solved colors of a group, each with its letter. -/
def identity (t : Chart) (piece : List Letter) : List (Color × Letter) :=
  piece.map fun l => (t.solvedColor l, l)

/-- The entries of one group: the piece with the colors now there, sticker by sticker. -/
def reportPiece (t : Chart) (identities : List (List (Color × Letter))) (c : Cube)
    (piece : List Letter) : Except LabelError (List (Letter × Letter)) :=
  let unknown := LabelError.unknownPiece t.kind (Letter.textOf piece)
  let current := piece.map (t.color c)
  match identities.find? fun identity => Color.sameSet (identity.map (·.1)) current with
  | none => .error unknown
  | some identity => piece.mapM fun l =>
    match identity.lookup (t.color c l) with
    | some shown => .ok (l, shown)
    | none => .error unknown

/-- The report of a cube; the first group whose colors are those of no piece is the error. -/
def report (t : Chart) (c : Cube) : Except LabelError Report := do
  let identities := t.pieces.map t.identity
  let entries ← t.pieces.mapM (t.reportPiece identities c)
  return .ofEntries entries.flatten

end Chart
end Blindfold
