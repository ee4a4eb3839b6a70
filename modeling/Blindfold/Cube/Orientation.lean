import Blindfold.Cube.Wiring

/-!
# How a cube is held

A cube is upright when white is on top and green in front. `Cube.orientation` finds the rotations that
bring it there, and a cube is solved when they bring it to `Cube.solved`.
-/

namespace Blindfold.Cube

/-- The rotation by a quarter that brings the right face to the front. -/
def quarterY : Move := ⟨.rotation .y, .clockwise⟩

/-- At most `limit` quarters about the vertical axis, until `color` is in front. -/
def untilFront (color : Color) : (limit : Nat) → Cube → Sequence
  | 0, _ => []
  | limit + 1, c =>
    if c.center .F = color then [] else quarterY :: untilFront color limit (c.execute quarterY)

/-- Rotations that bring white to the top. -/
def untilWhiteUp (c : Cube) : Sequence :=
  if c.center .U = .white then []
  else if c.center .D = .white then [⟨.rotation .x, .half⟩]
  else untilFront .white 4 c ++ [⟨.rotation .x, .clockwise⟩]

def orientation (c : Cube) : Sequence :=
  let up := untilWhiteUp c
  up ++ untilFront .green 4 (c.run up)

def upright (c : Cube) : Cube := c.run c.orientation

/-- Solved, however it is held. -/
def isSolved (c : Cube) : Bool := c.upright = solved

def isSolvedBy (c : Cube) (s : Sequence) : Bool := (c.run s).isSolved

end Blindfold.Cube
