import Blindfold.Lettering.Letter

/-!
# Lettering schemes

A scheme is what the label files say, before it is checked: where each letter is, and which letters are
on one piece. `Scheme.speffz` is the standard one.
-/

namespace Blindfold

/-- A letter and the place it is said to name. -/
structure Placement where
  letter : Char
  face : Nat
  row : Nat
  col : Nat
deriving DecidableEq, Repr

structure PieceScheme where
  placements : List Placement
  groups : List (List Char)
deriving DecidableEq, Repr

structure Scheme where
  edges : PieceScheme
  corners : PieceScheme
deriving DecidableEq, Repr

namespace Scheme

def labels (s : Scheme) : PieceKind → PieceScheme
  | .edge => s.edges
  | .corner => s.corners

/-- Four letters on each face in the order of the net, clockwise from a given first place. -/
def fourPerFace (places : List (Nat × Nat)) : List Placement :=
  Letter.all.filterMap fun l =>
    places[l.val % 4]?.map fun (row, col) => ⟨l.toChar, l.val / 4, row, col⟩

/-- The Speffz scheme: each face is lettered clockwise from its top left corner and its top edge. -/
def speffz : Scheme where
  edges := {
    placements := fourPerFace [(0, 1), (1, 2), (2, 1), (1, 0)]
    groups := ["aq", "bm", "ci", "de", "fl", "hr", "jp", "nt", "gx", "ku", "ov", "sw"].map (·.toList) }
  corners := {
    placements := fourPerFace [(0, 0), (0, 2), (2, 2), (2, 0)]
    groups := ["aer", "bqn", "cjm", "dif", "ulg", "vkp", "wot", "xsh"].map (·.toList) }

end Scheme
end Blindfold
