import Blindfold.Cube.Sticker

/-!
# Cubes

A cube assigns a color to each of the 54 stickers; it need not be one that turns can reach. `Cube.get`
is the view through which every operation is described.
-/

namespace Blindfold

/-- The colors of all stickers, in reading order. -/
structure Cube where
  colors : Vector Color 54
deriving DecidableEq, Repr

namespace Cube

def get (c : Cube) (p : Sticker) : Color := c.colors[p.index]

def ofFn (f : Sticker → Color) : Cube := ⟨Vector.ofFn fun i => f (Sticker.ofIndex i)⟩

/-- The cube on which every sticker `p` shows what `c` shows at `source p`. -/
def reindex (source : Sticker → Sticker) (c : Cube) : Cube := ofFn fun p => c.get (source p)

/-- The solved cube with white on top and green in front. -/
def solved : Cube := ofFn fun p => p.face.solvedColor

def center (c : Cube) (f : Face) : Color := c.get (.center f)

def count (c : Cube) (color : Color) : Nat := (Sticker.all.map c.get).count color

/-- Every color is on nine stickers. -/
def isLegal (c : Cube) : Bool := Color.all.all fun color => c.count color == 9

@[simp]
theorem get_ofFn (f : Sticker → Color) (p : Sticker) : (ofFn f).get p = f p := by
  simp [get, ofFn]

@[simp]
theorem get_solved (p : Sticker) : solved.get p = p.face.solvedColor := by
  simp [solved]

@[simp]
theorem get_reindex (source : Sticker → Sticker) (c : Cube) (p : Sticker) :
    (c.reindex source).get p = c.get (source p) := by
  simp [reindex]

@[ext]
theorem ext {c d : Cube} (h : ∀ p, c.get p = d.get p) : c = d := by
  obtain ⟨c⟩ := c
  obtain ⟨d⟩ := d
  congr 1
  ext i hi
  simpa [get] using h (Sticker.ofIndex ⟨i, hi⟩)

end Cube
end Blindfold
