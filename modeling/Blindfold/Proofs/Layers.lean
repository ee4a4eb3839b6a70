import Blindfold.Proofs.Parity
import Blindfold.Proofs.Rearrangement

/-!
# Single layers

A wide turn takes a face and the slice behind it, and a rotation the three layers about its axis. On every cube they
do what turns of these layers do one after the other: `Cube.execute_singles`.
-/

namespace Blindfold

/-- The turns of single layers that make up a clockwise quarter turn. -/
def Layer.singles : Layer → Sequence
  | face f => [⟨.face f, .clockwise⟩]
  | slice s => [⟨.slice s, .clockwise⟩]
  | wide .R => [⟨.face .R, .clockwise⟩, ⟨.slice .M, .counterclockwise⟩]
  | wide .L => [⟨.face .L, .clockwise⟩, ⟨.slice .M, .clockwise⟩]
  | wide .U => [⟨.face .U, .clockwise⟩, ⟨.slice .E, .counterclockwise⟩]
  | wide .D => [⟨.face .D, .clockwise⟩, ⟨.slice .E, .clockwise⟩]
  | wide .F => [⟨.face .F, .clockwise⟩, ⟨.slice .S, .clockwise⟩]
  | wide .B => [⟨.face .B, .clockwise⟩, ⟨.slice .S, .counterclockwise⟩]
  | rotation .x => [⟨.face .R, .clockwise⟩, ⟨.slice .M, .counterclockwise⟩, ⟨.face .L, .counterclockwise⟩]
  | rotation .y => [⟨.face .U, .clockwise⟩, ⟨.slice .E, .counterclockwise⟩, ⟨.face .D, .counterclockwise⟩]
  | rotation .z => [⟨.face .F, .clockwise⟩, ⟨.slice .S, .clockwise⟩, ⟨.face .B, .counterclockwise⟩]

theorem Layer.singles_ne_nil (l : Layer) : l.singles ≠ [] := by
  rcases l with f | f | s | a
  · exact List.cons_ne_nil _ _
  · cases f <;> exact List.cons_ne_nil _ _
  · exact List.cons_ne_nil _ _
  · cases a <;> exact List.cons_ne_nil _ _

theorem Layer.perm_singles (l : Layer) : Sequence.perm l.singles = l.perm .clockwise := by
  cases l with
  | face f => rfl
  | slice s => rfl
  | wide f =>
      rw [perm_wide]
      cases f <;> rfl
  | rotation a =>
      have h : (rotation a).perm .clockwise = (Quarter.rotation a .clockwise).perm := rfl
      rw [h, a.perm_rotation]
      cases a <;> rfl

/-- The turns of single layers that make up a move. -/
def Move.singles (m : Move) : Sequence :=
  match m.turn with
  | .clockwise => m.layer.singles
  | .counterclockwise => m.layer.singles.inverse
  | .half => m.layer.singles ++ m.layer.singles

theorem Move.singles_ne_nil (m : Move) : m.singles ≠ [] := by
  obtain ⟨l, turn⟩ := m
  have h := l.singles_ne_nil
  cases turn with
  | clockwise => exact h
  | counterclockwise => simpa [singles, Sequence.inverse] using h
  | half => simpa [singles] using h

theorem Move.perm_singles (m : Move) : Sequence.perm m.singles = m.perm := by
  obtain ⟨l, turn⟩ := m
  cases turn with
  | clockwise => exact l.perm_singles
  | counterclockwise =>
      rw [singles, Sequence.perm_inverse, l.perm_singles, ← l.perm_reverse]
      rfl
  | half => rw [singles, Sequence.perm_append, l.perm_singles, perm_half]

theorem Sequence.perm_singles (s : Sequence) : perm (s.flatMap Move.singles) = perm s := by
  induction s with
  | nil => rfl
  | cons m s ih => rw [List.flatMap_cons, perm_append, m.perm_singles, ih, perm_cons]

namespace Cube

variable {s t : Sequence} {m : Move}

theorem run_congr (h : Sequence.perm s = Sequence.perm t) (c : Cube) : c.run s = c.run t := by
  rw [run_eq_reindex, run_eq_reindex, h]

/-- In place, all sequences that do something fail on the same cubes. -/
theorem run?_eq_ite (hs : s ≠ []) (c : Cube) : c.run? s = if c.isLegal then some (c.run s) else none := by
  split
  · exact run?_eq ‹_› s
  · rename_i h
    cases s with
    | nil => exact absurd rfl hs
    | cons m s =>
        change (c.execute? m).bind (run? · s) = _
        rw [execute?_eq, if_neg h, Option.bind_none]

theorem run_eq_execute (h : Sequence.perm s = m.perm) (c : Cube) : c.run s = c.execute m := by
  rw [run_eq_reindex, execute_eq_reindex, h]

theorem run?_eq_execute? (hs : s ≠ []) (h : Sequence.perm s = m.perm) (c : Cube) : c.run? s = c.execute? m := by
  rw [run?_eq_ite hs, execute?_eq, run_eq_execute h]

/-- Whatever the colors are, a move does what its single layers do, also when they are turned in place; and so does a
whole sequence. -/
theorem execute_singles (c : Cube) :
    (∀ m : Move, c.execute m = c.run m.singles ∧ c.execute? m = c.run? m.singles) ∧
      ∀ s : Sequence, c.run s = c.run (s.flatMap Move.singles) := by
  constructor
  · intro m
    constructor
    · exact (run_eq_execute m.perm_singles c).symm
    · exact (run?_eq_execute? m.singles_ne_nil m.perm_singles c).symm
  · intro s
    exact (run_congr s.perm_singles c).symm

end Cube
end Blindfold
