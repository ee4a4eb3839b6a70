import Blindfold.Move.Sequence
import Blindfold.Cube.Basic

/-!
# Wiring

Every move is made of quarter turns of nine layers and of quarter rotations of the whole cube. A quarter
turn is given by its wires: for each sticker that changes, the sticker its new color comes from.
-/

namespace Blindfold

inductive Direction where
  | clockwise
  | counterclockwise
deriving DecidableEq, Repr

namespace Direction

def reverse : Direction → Direction
  | clockwise => counterclockwise
  | counterclockwise => clockwise

/-- The sense as a number of clockwise quarter turns. -/
def quarters : Direction → Nat
  | clockwise => 1
  | counterclockwise => 3

end Direction

/-- A layer that is turned by itself. -/
inductive Slab where
  | face (f : Face)
  | slice (s : Slice)
deriving DecidableEq, Repr

/-- Pairs of a sticker and the sticker whose color it takes. -/
abbrev Wires := List (Sticker × Sticker)

namespace Wires

/-- Where the color that arrives at `p` comes from; other stickers keep their color. -/
def source (wires : Wires) (p : Sticker) : Sticker := (wires.lookup p).getD p

/-- The wires of a closed run of stickers, each taking the color of the next. -/
def ofCycle (cycle : List Sticker) : Wires := cycle.zip (cycle.rotateLeft 1)

end Wires

def Face.stickers (f : Face) : List Sticker :=
  (List.finRange 3).flatMap fun row => (List.finRange 3).map fun col => ⟨f, row, col⟩

/-- The wires of a face spun by clockwise quarter turns, taking its colors from the face `origin`. -/
def Face.spinWires (f origin : Face) (quarters : Nat) : Wires :=
  f.stickers.map fun p => (p, { p.spinSource quarters with face := origin })

namespace Slab

/-- The `i`th sticker of each of the four strips around the layer. A clockwise turn brings each the color
of the next. -/
def ring (s : Slab) (i : Fin 3) : List Sticker :=
  let j := i.rev
  match s with
  | face .U => [⟨.L, 0, i⟩, ⟨.F, 0, i⟩, ⟨.R, 0, i⟩, ⟨.B, 0, i⟩]
  | face .D => [⟨.B, 2, i⟩, ⟨.R, 2, i⟩, ⟨.F, 2, i⟩, ⟨.L, 2, i⟩]
  | face .F => [⟨.L, j, 2⟩, ⟨.D, 0, j⟩, ⟨.R, i, 0⟩, ⟨.U, 2, i⟩]
  | face .B => [⟨.R, i, 2⟩, ⟨.D, 2, j⟩, ⟨.L, j, 0⟩, ⟨.U, 0, i⟩]
  | face .R => [⟨.F, i, 2⟩, ⟨.D, i, 2⟩, ⟨.B, j, 0⟩, ⟨.U, i, 2⟩]
  | face .L => [⟨.B, j, 2⟩, ⟨.D, i, 0⟩, ⟨.F, i, 0⟩, ⟨.U, i, 0⟩]
  | slice .M => [⟨.B, j, 1⟩, ⟨.D, i, 1⟩, ⟨.F, i, 1⟩, ⟨.U, i, 1⟩]
  | slice .S => [⟨.L, j, 1⟩, ⟨.D, 1, j⟩, ⟨.R, i, 1⟩, ⟨.U, 1, i⟩]
  | slice .E => [⟨.B, 1, i⟩, ⟨.R, 1, i⟩, ⟨.F, 1, i⟩, ⟨.L, 1, i⟩]

/-- The ring as it is run through by a turn of the given sense. -/
def directedRing (s : Slab) (d : Direction) (i : Fin 3) : List Sticker :=
  match d with
  | .clockwise => s.ring i
  | .counterclockwise => (s.ring i).reverse

/-- The wires of a quarter turn of the layer; a face also spins. -/
def wires (s : Slab) (d : Direction) : Wires :=
  let strips := (List.finRange 3).flatMap fun i => Wires.ofCycle (s.directedRing d i)
  match s with
  | face f => strips ++ f.spinWires f d.quarters
  | slice _ => strips

end Slab

namespace Axis

/-- The face whose colors a face takes in a quarter rotation, and the clockwise quarter turns by which they
arrive spun. -/
def origin : Axis → Direction → Face → Face × Nat
  | .x, .clockwise => fun
    | .U => (.F, 0) | .F => (.D, 0) | .D => (.B, 2) | .B => (.U, 2) | .R => (.R, 1) | .L => (.L, 3)
  | .x, .counterclockwise => fun
    | .U => (.B, 2) | .B => (.D, 2) | .D => (.F, 0) | .F => (.U, 0) | .R => (.R, 3) | .L => (.L, 1)
  | .y, .clockwise => fun
    | .F => (.R, 0) | .R => (.B, 0) | .B => (.L, 0) | .L => (.F, 0) | .U => (.U, 1) | .D => (.D, 3)
  | .y, .counterclockwise => fun
    | .F => (.L, 0) | .L => (.B, 0) | .B => (.R, 0) | .R => (.F, 0) | .U => (.U, 3) | .D => (.D, 1)
  | .z, .clockwise => fun
    | .U => (.L, 1) | .L => (.D, 1) | .D => (.R, 1) | .R => (.U, 1) | .F => (.F, 1) | .B => (.B, 3)
  | .z, .counterclockwise => fun
    | .U => (.R, 3) | .R => (.D, 3) | .D => (.L, 3) | .L => (.U, 3) | .F => (.F, 3) | .B => (.B, 1)

def wires (a : Axis) (d : Direction) : Wires :=
  Face.all.flatMap fun f =>
    let (origin, quarters) := a.origin d f
    f.spinWires origin quarters

end Axis

/-- A quarter turn of one layer or of the whole cube. -/
inductive Quarter where
  | slab (s : Slab) (d : Direction)
  | rotation (a : Axis) (d : Direction)
deriving DecidableEq, Repr

def Quarter.wires : Quarter → Wires
  | slab s d => s.wires d
  | rotation a d => a.wires d

/-- The slice behind a face, and whether it turns with that face. -/
def Face.sliceBehind : Face → Slice × Bool
  | .U => (.E, false) | .D => (.E, true)
  | .F => (.S, true) | .B => (.S, false)
  | .R => (.M, false) | .L => (.M, true)

/-- A layer's turn in one sense, as quarter turns that are done in order. A wide layer takes the slice
behind its face along. -/
def Layer.quarters (d : Direction) : Layer → List Quarter
  | face f => [.slab (.face f) d]
  | wide f =>
    let (behind, same) := f.sliceBehind
    [.slab (.face f) d, .slab (.slice behind) (if same then d else d.reverse)]
  | slice s => [.slab (.slice s) d]
  | rotation a => [.rotation a d]

def Move.quarters (m : Move) : List Quarter :=
  match m.turn with
  | .clockwise => m.layer.quarters .clockwise
  | .counterclockwise => m.layer.quarters .counterclockwise
  | .half => m.layer.quarters .clockwise ++ m.layer.quarters .clockwise

namespace Cube

/-- Sends every color along its wire. -/
def rewire (c : Cube) (wires : Wires) : Cube := c.reindex wires.source

def execute (c : Cube) (m : Move) : Cube := m.quarters.foldl (fun c q => c.rewire q.wires) c

def run (c : Cube) (s : Sequence) : Cube := s.foldl execute c

@[simp]
theorem get_rewire (c : Cube) (wires : Wires) (p : Sticker) :
    (c.rewire wires).get p = c.get (wires.source p) :=
  get_reindex ..

@[simp]
theorem run_nil (c : Cube) : c.run [] = c := rfl

@[simp]
theorem run_cons (c : Cube) (m : Move) (s : Sequence) : c.run (m :: s) = (c.execute m).run s := rfl

@[simp]
theorem run_append (c : Cube) (s t : Sequence) : c.run (s ++ t) = (c.run s).run t :=
  List.foldl_append

end Cube
end Blindfold
