import Blindfold.Cube.Orientation

/-!
# Turning in place

The same turns, done by overwriting one sticker after the other. A face is written back spun from a copy, the
colors of a ring are passed on around it, and a rotation writes the faces around its axis from a copy of the cube.
Whenever a layer has turned by a quarter, the cube is checked to be legal. To hold a cube upright in place is to do
rotations one by one, look at the cube after each, and note them down.
-/

namespace Blindfold

theorem Sticker.index_lt (p : Sticker) : (p.index : Nat) < 54 := p.index.isLt

/-- Where a sticker goes when its face is spun by a quarter. -/
def Sticker.spun : Direction → Sticker → Sticker
  | .clockwise, p => { p with row := p.col, col := p.row.rev }
  | .counterclockwise, p => { p with row := p.col.rev, col := p.row }

namespace Axis

/-- The faces on the axis: first the one that a quarter rotation spins clockwise. -/
def poles : Axis → Direction → Face × Face
  | .x, .clockwise => (.R, .L)
  | .x, .counterclockwise => (.L, .R)
  | .y, .clockwise => (.U, .D)
  | .y, .counterclockwise => (.D, .U)
  | .z, .clockwise => (.F, .B)
  | .z, .counterclockwise => (.B, .F)

def sides (a : Axis) (d : Direction) : List Face :=
  Face.all.filter fun f => f ≠ (a.poles d).1 && f ≠ (a.poles d).2

end Axis

/-- What is written when a face is spun where it is. -/
def Face.spinWrites (f : Face) (d : Direction) : Wires := f.stickers.map fun p => (p.spun d, p)

/-- What is written on the faces around the axis: each takes the colors of another face, spun clockwise as often as
needed. -/
def Axis.sideWrites (a : Axis) (d : Direction) : Wires :=
  (a.sides d).flatMap fun f =>
    let (origin, quarters) := a.origin d f
    origin.stickers.map fun p => ({ Nat.repeat (Sticker.spun .clockwise) quarters p with face := f }, p)

namespace Cube

def set (c : Cube) (p : Sticker) (color : Color) : Cube := ⟨c.colors.set p.index color p.index_lt⟩

/-- Overwrites stickers one by one with colors of the cube `old`. -/
def write (c old : Cube) (wires : Wires) : Cube := wires.foldl (fun c w => c.set w.1 (old.get w.2)) c

def spin (c : Cube) (f : Face) (d : Direction) : Cube := c.write c (f.spinWrites d)

/-- Gives each sticker the color that the next one has by then, and the last one the color `first`. -/
def passOn (first : Color) (c : Cube) : List Sticker → Cube
  | [] => c
  | [p] => c.set p first
  | p :: q :: ring => passOn first (c.set p (c.get q)) (q :: ring)

/-- Passes the colors of a ring on by one sticker; the first color is kept for the last. -/
def shift (c : Cube) : List Sticker → Cube
  | [] => c
  | p :: ring => passOn (c.get p) c (p :: ring)

def turnSlab (c : Cube) (s : Slab) (d : Direction) : Cube :=
  let spun := match s with
    | .face f => c.spin f d
    | .slice _ => c
  (List.finRange 3).foldl (fun c i => c.shift (s.directedRing d i)) spun

def rotate (c : Cube) (a : Axis) (d : Direction) : Cube :=
  let copy := (c.spin (a.poles d).1 .clockwise).spin (a.poles d).2 .counterclockwise
  -- All faces are read from the copy, so the order in which they are written does not matter.
  copy.write copy (a.sideWrites d)

def turn (c : Cube) : Quarter → Cube
  | .slab s d => c.turnSlab s d
  | .rotation a d => c.rotate a d

/-- Turns a layer by a quarter; the turn fails if it leaves a cube that is not legal. -/
def turnLayer? (c : Cube) (l : Layer) (d : Direction) : Option Cube :=
  let turned := (l.quarters d).foldl turn c
  if turned.isLegal then some turned else none

/-- A half turn is two quarters, with a check after each. -/
def execute? (c : Cube) (m : Move) : Option Cube :=
  match m.turn with
  | .clockwise => c.turnLayer? m.layer .clockwise
  | .counterclockwise => c.turnLayer? m.layer .counterclockwise
  | .half => do
    let turned ← c.turnLayer? m.layer .clockwise
    turned.turnLayer? m.layer .clockwise

def run? (c : Cube) (s : Sequence) : Option Cube := s.foldlM execute? c

/-- Does a move and notes it after the moves that were done before. -/
def executeNoting? (held : Cube × Sequence) (m : Move) : Option (Cube × Sequence) :=
  (held.1.execute? m).map fun turned => (turned, held.2 ++ [m])

/-- At most `limit` quarters about the vertical axis, until `color` is in front. -/
def turnToFront? (color : Color) : (limit : Nat) → Cube × Sequence → Option (Cube × Sequence)
  | 0, held => some held
  | limit + 1, held =>
    if held.1.center .F = color then some held
    else (executeNoting? held quarterY).bind (turnToFront? color limit)

def turnWhiteUp? (c : Cube) : Option (Cube × Sequence) :=
  if c.center .U = .white then some (c, [])
  else if c.center .D = .white then executeNoting? (c, []) ⟨.rotation .x, .half⟩
  else (turnToFront? .white 4 (c, [])).bind (executeNoting? · ⟨.rotation .x, .clockwise⟩)

/-- Brings white to the top and green to the front. The value is the cube with the rotations that were done. -/
def holdUpright? (c : Cube) : Option (Cube × Sequence) := c.turnWhiteUp?.bind (turnToFront? .green 4)

end Cube
end Blindfold
