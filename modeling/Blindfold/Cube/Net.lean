import Blindfold.Cube.Basic

/-!
# The printed net

`U` above, then `L F R B` side by side, then `D`, with a blank line between the three bands.
-/

namespace Blindfold.Cube

/-- The letters of one row of a face, each followed by a space. -/
def rowText (c : Cube) (f : Face) (row : Fin 3) : String :=
  String.join ((List.finRange 3).map fun col => s!"{(c.get ⟨f, row, col⟩).letter} ")

/-- A face that stands alone is indented by a tab. -/
def bandOfOne (c : Cube) (f : Face) : List String :=
  (List.finRange 3).map fun row => "\t" ++ c.rowText f row

/-- Faces side by side, each row ended by a tab. -/
def bandOfMany (c : Cube) (faces : List Face) : List String :=
  (List.finRange 3).map fun row => String.join (faces.map fun f => c.rowText f row ++ "\t")

/-- The net as text, every line ended by a line feed. -/
def net (c : Cube) : String :=
  let lines := c.bandOfOne .U ++ [""] ++ c.bandOfMany [.L, .F, .R, .B] ++ [""] ++ c.bandOfOne .D
  String.join (lines.map (· ++ "\n"))

end Blindfold.Cube
