/-!
# Layers

The parts of the cube that a move turns: a face, a face with the slice behind it, a slice, or the
whole cube. Each has a symbol and may have a second spelling.
-/

namespace Blindfold

/-- A face of the cube, in the order of the unfolded net. -/
inductive Face where
  | U | L | F | R | B | D
deriving DecidableEq, Repr

/-- A middle layer; it turns with `L`, `F` or `D` respectively. -/
inductive Slice where
  | M | S | E
deriving DecidableEq, Repr

/-- An axis of the whole cube, through the centers of `R`, `U` or `F` respectively. -/
inductive Axis where
  | x | y | z
deriving DecidableEq, Repr

inductive Layer where
  | face (f : Face)
  | wide (f : Face)
  | slice (s : Slice)
  | rotation (a : Axis)
deriving DecidableEq, Repr

namespace Face

/-- The faces as the net is read. -/
def all : List Face := [U, L, F, R, B, D]

/-- The faces as moves are listed. -/
def inMoveOrder : List Face := [U, D, F, B, R, L]

/-- The place in `all`. -/
def index : Face → Fin 6
  | U => 0 | L => 1 | F => 2 | R => 3 | B => 4 | D => 5

/-- The face with a given place in `all`. -/
def ofIndex? (n : Nat) : Option Face := all[n]?

def symbol : Face → Char
  | U => 'U' | L => 'L' | F => 'F' | R => 'R' | B => 'B' | D => 'D'

end Face

namespace Layer

/-- Faces first, then wide layers, slices and rotations. -/
def all : List Layer :=
  Face.inMoveOrder.map face ++ Face.inMoveOrder.map wide ++ [Slice.M, Slice.S, Slice.E].map slice ++
    [Axis.x, Axis.y, Axis.z].map rotation

def isRotation : Layer → Bool
  | rotation _ => true
  | _ => false

/-- How the layer may be written; the first spelling is the canonical one. -/
def spellings : Layer → List (List Char)
  | face f => [[f.symbol]]
  | wide f => [[f.symbol.toLower], [f.symbol, 'w']]
  | slice .M => [['M']]
  | slice .S => [['S']]
  | slice .E => [['E']]
  | rotation .x => [['x'], ['X']]
  | rotation .y => [['y'], ['Y']]
  | rotation .z => [['z'], ['Z']]

/-- The canonical spelling. -/
def symbol (l : Layer) : List Char := l.spellings.headD []

def read? (cs : List Char) : Option Layer := all.find? (·.spellings.contains cs)

end Layer
end Blindfold
