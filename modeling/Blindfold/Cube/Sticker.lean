import Blindfold.Move.Layer

/-!
# Stickers

The 54 places of the unfolded net. The side faces are read with `U` on top, `U` with `B` on top and `D`
with `F` on top. A place is not a color: turns move colors from place to place.
-/

namespace Blindfold

inductive Color where
  | white | yellow | red | orange | blue | green
deriving DecidableEq, Repr

namespace Color

def all : List Color := [white, yellow, red, orange, blue, green]

def letter : Color → Char
  | white => 'W' | yellow => 'Y' | red => 'R' | orange => 'O' | blue => 'B' | green => 'G'

end Color

/-- The color of a face on the solved cube with white on top and green in front. -/
def Face.solvedColor : Face → Color
  | .U => .white | .L => .orange | .F => .green | .R => .red | .B => .blue | .D => .yellow

/-- Rows and columns have numerals. `Nat.instNeZeroSucc` would do for them, but as it is applied to an argument every
definition with such a numeral would keep a proof of its own; a constant is the same in all of them. The zero is
written out because Mathlib comes to it on another path. -/
instance Sticker.neZero : @NeZero Nat Zero.ofOfNat0 3 := Nat.instNeZeroSucc

structure Sticker where
  face : Face
  row : Fin 3
  col : Fin 3
deriving DecidableEq, Repr

namespace Sticker

/-- The place in the reading order of the net. -/
def index (p : Sticker) : Fin 54 :=
  ⟨9 * p.face.index + 3 * p.row + p.col, by omega⟩

/-- The sticker at a given place in the reading order. -/
def ofIndex (i : Fin 54) : Sticker where
  face := Face.all.get ⟨i.val / 9, by simp only [Face.all, List.length_cons, List.length_nil]; omega⟩
  row := ⟨i.val / 3 % 3, Nat.mod_lt _ (by decide)⟩
  col := ⟨i.val % 3, Nat.mod_lt _ (by decide)⟩

def all : List Sticker := List.ofFn ofIndex

def center (f : Face) : Sticker := ⟨f, 1, 1⟩

/-- Where the sticker that arrives at `p` comes from when the face is spun clockwise by a number of
quarter turns. -/
def spinSource : (quarters : Nat) → Sticker → Sticker
  | 0, p => p
  | n + 1, p => spinSource n { p with row := p.col.rev, col := p.row }

@[simp]
theorem ofIndex_index (p : Sticker) : ofIndex p.index = p := by
  obtain ⟨f, r, c⟩ := p
  cases f <;> revert r c <;> decide

@[simp]
theorem index_ofIndex (i : Fin 54) : (ofIndex i).index = i := by
  revert i
  decide

end Sticker
end Blindfold
