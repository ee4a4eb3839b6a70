import Blindfold.Cube.Basic
import Blindfold.Lettering.Error
import Blindfold.Lettering.Scheme

/-!
# Charts

A chart is a checked scheme of one kind of pieces: every letter has one sticker and one group, every group
has as many letters as a piece has stickers, and the groups can be told apart by their solved colors.
-/

namespace Blindfold

namespace Letter

/-- The values of a partial function that has one for every letter, or the first letter without. -/
def tabulate {α : Type} (f : Letter → Option α) : Except Letter (Vector α 24) :=
  match h : all.find? fun l => (f l).isNone with
  | some l => .error l
  | none => .ok <| Vector.ofFn fun l => (f l).get <| by
      have := List.find?_eq_none.1 h l (List.mem_finRange l)
      simpa [Option.isSome_iff_ne_none] using this

/-- The first letter that was seen before, in `seen` or earlier in the list. -/
def firstRepeat? (seen : List Letter) : List Letter → Option Letter
  | [] => none
  | l :: rest => if l ∈ seen then some l else firstRepeat? (l :: seen) rest

end Letter

def Sticker.ofCoordinates? (face row col : Nat) : Option Sticker :=
  match Face.ofIndex? face with
  | some f =>
    if h : row < 3 ∧ col < 3 then some ⟨f, ⟨row, h.1⟩, ⟨col, h.2⟩⟩ else none
  | none => none

/-- The same colors, in any order and number. -/
def Color.sameSet (xs ys : List Color) : Bool := xs.all ys.contains && ys.all xs.contains

/-- A checked scheme of one kind of pieces. -/
structure Chart where
  kind : PieceKind
  stickers : Vector Sticker 24
  /-- The groups in the order of the scheme. -/
  pieces : List (List Letter)
  /-- The group of every letter. -/
  pieceOf : Vector (List Letter) 24

namespace Chart

def sticker (t : Chart) (l : Letter) : Sticker := Letter.entry t.stickers l

/-- The letters on the same piece as `l`, itself included. -/
def related (t : Chart) (l : Letter) : List Letter := Letter.entry t.pieceOf l

def areRelated (t : Chart) (a b : Letter) : Bool := (t.related a).contains b

def color (t : Chart) (c : Cube) (l : Letter) : Color := c.get (t.sticker l)

def solvedColor (t : Chart) (l : Letter) : Color := t.color .solved l

/-! ## Checking a scheme -/

def place (kind : PieceKind) (placed : List (Letter × Sticker)) (p : Placement) :
    Except LabelError (List (Letter × Sticker)) := do
  let letter ← Letter.ofChar p.letter
  match Sticker.ofCoordinates? p.face p.row p.col with
  | none => throw (.offCube kind letter p.face p.row p.col)
  | some sticker =>
    if (placed.lookup letter).isSome then throw (.duplicateLetter kind .labels letter)
    return (letter, sticker) :: placed

def addGroup (kind : PieceKind) (pieces : List (List Letter)) (group : List Char) :
    Except LabelError (List (List Letter)) := do
  if group.length ≠ kind.size then throw (.groupSize kind (String.ofList group))
  let letters ← group.mapM Letter.ofChar
  match Letter.firstRepeat? pieces.flatten letters with
  | some l => throw (.duplicateLetter kind .connections l)
  | none => return pieces ++ [letters]

/-- The first group whose colors repeat or are those of an earlier group. -/
def firstAmbiguous? (colors : List Letter → List Color) (seen : List (List Color)) :
    List (List Letter) → Option (List Letter)
  | [] => none
  | piece :: rest =>
    let cs := colors piece
    if ¬ cs.Nodup ∨ seen.any (Color.sameSet cs) then some piece
    else firstAmbiguous? colors (cs :: seen) rest

/-- A table that must have an entry for every letter. -/
def complete {α : Type} (kind : PieceKind) (table : LabelTable) (f : Letter → Option α) :
    Except LabelError (Vector α 24) :=
  (Letter.tabulate f).mapError (.missingLetter kind table)

def build (kind : PieceKind) (scheme : PieceScheme) : Except LabelError Chart := do
  let placed ← scheme.placements.foldlM (place kind) []
  let stickers ← complete kind .labels fun l => placed.lookup l
  let pieces ← scheme.groups.foldlM (addGroup kind) []
  let pieceOf ← complete kind .connections fun l => pieces.find? (·.contains l)
  let chart : Chart := { kind, stickers, pieces, pieceOf }
  match firstAmbiguous? (·.map chart.solvedColor) [] pieces with
  | some piece => throw (.ambiguousPiece kind (Letter.textOf piece))
  | none => return chart

end Chart

/-- Checked schemes of both kinds of pieces. -/
structure Lettering where
  edges : Chart
  corners : Chart

namespace Lettering

def chart (t : Lettering) : PieceKind → Chart
  | .edge => t.edges
  | .corner => t.corners

/-- Checks a scheme, edges first. -/
def build (scheme : Scheme) : Except LabelError Lettering := do
  let edges ← Chart.build .edge scheme.edges
  let corners ← Chart.build .corner scheme.corners
  return { edges, corners }

def speffz : Except LabelError Lettering := build .speffz

end Lettering
end Blindfold
