/-!
# Letters and kinds of pieces

Every sticker of an edge has one of the letters `a` to `x`, and so has every sticker of a corner.
-/

namespace Blindfold

/-- One of the letters `a` to `x`, by its place in the alphabet. -/
abbrev Letter := Fin 24

namespace Letter

def all : List Letter := List.finRange 24

def toChar (l : Letter) : Char := Char.ofNat (97 + l.val)

/-- The letter of a character of either case. -/
def ofChar? (c : Char) : Option Letter :=
  let n := c.toLower.toNat
  if h : 97 ≤ n ∧ n < 121 then some ⟨n - 97, by omega⟩ else none

/-- The letter with a given place in the alphabet. -/
def ofIndex? (n : Nat) : Option Letter := if h : n < 24 then some ⟨n, h⟩ else none

/-- The buffer unless another one is chosen: `c`, on the corner `UFR` and on the edge `UF`. -/
def defaultBuffer : Letter := 2

def entry {α : Type} (table : Vector α 24) (l : Letter) : α := table[l]

@[simp]
theorem entry_ofFn {α : Type} (f : Letter → α) (l : Letter) : entry (Vector.ofFn f) l = f l := by
  simp [entry]

def textOf (ls : List Letter) : String := String.ofList (ls.map toChar)

end Letter

/-- The two kinds of pieces that are solved by letters. -/
inductive PieceKind where
  | edge
  | corner
deriving DecidableEq, Repr

namespace PieceKind

def all : List PieceKind := [edge, corner]

def size : PieceKind → Nat
  | edge => 2
  | corner => 3

def other : PieceKind → PieceKind
  | edge => corner
  | corner => edge

def name : PieceKind → String
  | edge => "edge"
  | corner => "corner"

/-- The kind that a word names, in any case: a name, its plural or its initial. -/
def ofString? (word : String) : Option PieceKind :=
  match word.map Char.toLower with
  | "e" | "edge" | "edges" => some edge
  | "c" | "corner" | "corners" => some corner
  | _ => none

end PieceKind
end Blindfold
