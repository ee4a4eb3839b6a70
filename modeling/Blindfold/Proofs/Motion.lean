import Mathlib.Algebra.BigOperators.Group.List.Basic
import Mathlib.Algebra.Group.Commute.Basic
import Mathlib.Algebra.Group.End
import Mathlib.Algebra.Group.Subgroup.Finite
import Mathlib.Data.Fintype.EquivFin
import Mathlib.Data.Fintype.OfMap
import Blindfold.Cube.Wiring

/-!
# Moves as permutations of the stickers

A color arrives at a sticker from one other sticker, whatever the colors are. `Sequence.perm` says from
which, for a whole sequence: `Cube.get_run`. Sequences done one after the other multiply, and the inverse
sequence has the inverse permutation, so that it undoes the sequence on every cube (`Sequence.inverse_undoes`).
-/

namespace Blindfold

/-! ## Finitely many layers and stickers -/

instance : Fintype Face := .ofList Face.all (by rintro (_ | _) <;> decide)

instance : Fintype Slice := .ofList [.M, .S, .E] (by rintro (_ | _) <;> decide)

instance : Fintype Axis := .ofList [.x, .y, .z] (by rintro (_ | _) <;> decide)

instance : Fintype Direction := .ofList [.clockwise, .counterclockwise] (by rintro (_ | _) <;> decide)

instance : Fintype Sticker := .ofBijective Sticker.ofIndex
  ⟨fun i j h => by rw [← Sticker.index_ofIndex i, h, Sticker.index_ofIndex],
    fun p => ⟨p.index, Sticker.ofIndex_index p⟩⟩

/-! ## Quarter turns -/

@[simp]
theorem Direction.reverse_reverse (d : Direction) : d.reverse.reverse = d := by
  cases d <;> rfl

/-- The quarter turn that undoes this one. -/
def Quarter.reverse : Quarter → Quarter
  | slab s d => slab s d.reverse
  | rotation a d => rotation a d.reverse

@[simp]
theorem Quarter.reverse_reverse (q : Quarter) : q.reverse.reverse = q := by
  cases q <;> simp [Quarter.reverse]

/-- What holds of the clockwise quarter turns, and of the reverse of a quarter turn of which it holds,
holds of all. -/
@[elab_as_elim]
theorem Quarter.of_clockwise {P : Quarter → Prop} (q : Quarter)
    (face : ∀ f, P (.slab (.face f) .clockwise)) (slice : ∀ s, P (.slab (.slice s) .clockwise))
    (rotation : ∀ a, P (.rotation a .clockwise)) (reverse : ∀ q, P q → P q.reverse) : P q := by
  rcases q with ⟨f | s, _ | _⟩ | ⟨a, _ | _⟩
  · exact face f
  · exact reverse _ (face f)
  · exact slice s
  · exact reverse _ (slice s)
  · exact rotation a
  · exact reverse _ (rotation a)

theorem Quarter.source_reverse (q : Quarter) :
    Function.LeftInverse q.reverse.wires.source q.wires.source := by
  induction q using of_clockwise with
  | face f => unfold Function.LeftInverse; revert f; decide +kernel
  | slice s => unfold Function.LeftInverse; revert s; decide +kernel
  | rotation a => unfold Function.LeftInverse; revert a; decide +kernel
  | reverse q ih =>
      rw [reverse_reverse]
      exact ih.rightInverse_of_card_le (Nat.le_refl _)

/-- Sends every sticker to the one that its color comes from. -/
def Quarter.perm (q : Quarter) : Equiv.Perm Sticker where
  toFun := q.wires.source
  invFun := q.reverse.wires.source
  left_inv := q.source_reverse
  right_inv p := by simpa using q.reverse.source_reverse p

theorem Quarter.perm_reverse (q : Quarter) : q.reverse.perm = q.perm⁻¹ := by
  refine Equiv.ext fun p => ?_
  rfl

theorem Quarter.perm_mul_self (q : Quarter) : q.reverse.perm * q.reverse.perm = q.perm * q.perm := by
  induction q using of_clockwise with
  | face f => revert f; simp only [Equiv.ext_iff]; decide +kernel
  | slice s => revert s; simp only [Equiv.ext_iff]; decide +kernel
  | rotation a => revert a; simp only [Equiv.ext_iff]; decide +kernel
  | reverse q ih => rw [reverse_reverse, ih]

theorem Face.commute_sliceBehind (f : Face) (d e : Direction) :
    Commute (Quarter.slab (.face f) d).perm (Quarter.slab (.slice f.sliceBehind.1) e).perm := by
  have h : Commute (Quarter.slab (.face f) .clockwise).perm
      (Quarter.slab (.slice f.sliceBehind.1) .clockwise).perm := by
    -- The two turns move no sticker in common.
    unfold Commute SemiconjBy
    revert f
    simp only [Equiv.ext_iff]
    decide +kernel
  cases d <;> cases e
  · exact h
  · exact h.inv_right
  · exact h.inv_left
  · exact h.inv_inv

/-! ## Layers -/

/-- Sends every sticker to the one that its color comes from when the layer is turned. -/
def Layer.perm (l : Layer) (d : Direction) : Equiv.Perm Sticker := ((l.quarters d).map Quarter.perm).prod

/-- The sense in which the slice behind a face turns along with it. -/
def Face.sliceSense (f : Face) (d : Direction) : Direction := if f.sliceBehind.2 then d else d.reverse

theorem Face.sliceSense_reverse (f : Face) (d : Direction) :
    f.sliceSense d.reverse = (f.sliceSense d).reverse := by
  unfold sliceSense
  split <;> rfl

theorem Layer.perm_wide (f : Face) (d : Direction) :
    (wide f).perm d = (Quarter.slab (.face f) d).perm *
      (Quarter.slab (.slice f.sliceBehind.1) (f.sliceSense d)).perm := by
  simp [perm, quarters, Face.sliceSense]

theorem Layer.perm_reverse (l : Layer) (d : Direction) : l.perm d.reverse = (l.perm d)⁻¹ := by
  cases l with
  | face f => exact Quarter.perm_reverse (.slab (.face f) d)
  | wide f =>
      have hf := Quarter.perm_reverse (.slab (.face f) d)
      have hs := Quarter.perm_reverse (.slab (.slice f.sliceBehind.1) (f.sliceSense d))
      rw [perm_wide, perm_wide, f.sliceSense_reverse, (f.commute_sliceBehind d _).eq, mul_inv_rev]
      exact congrArg₂ (· * ·) hf hs
  | slice s => exact Quarter.perm_reverse (.slab (.slice s) d)
  | rotation a => exact Quarter.perm_reverse (.rotation a d)

theorem Layer.perm_mul_self (l : Layer) (d : Direction) :
    l.perm d.reverse * l.perm d.reverse = l.perm d * l.perm d := by
  cases l with
  | face f => exact Quarter.perm_mul_self (.slab (.face f) d)
  | wide f =>
      have hf := Quarter.perm_mul_self (.slab (.face f) d)
      have hs := Quarter.perm_mul_self (.slab (.slice f.sliceBehind.1) (f.sliceSense d))
      rw [perm_wide, perm_wide, f.sliceSense_reverse,
        (f.commute_sliceBehind _ _).symm.mul_mul_mul_comm,
        (f.commute_sliceBehind _ _).symm.mul_mul_mul_comm]
      exact congrArg₂ (· * ·) hf hs
  | slice s => exact Quarter.perm_mul_self (.slab (.slice s) d)
  | rotation a => exact Quarter.perm_mul_self (.rotation a d)

/-! ## Moves and sequences -/

/-- Sends every sticker to the one that its color comes from in the move. -/
def Move.perm (m : Move) : Equiv.Perm Sticker := (m.quarters.map Quarter.perm).prod

theorem Move.perm_half (l : Layer) : perm ⟨l, .half⟩ = l.perm .clockwise * l.perm .clockwise := by
  simp [perm, quarters, Layer.perm]

theorem Move.perm_inverse (m : Move) : m.inverse.perm = m.perm⁻¹ := by
  obtain ⟨l, turn⟩ := m
  cases turn with
  | clockwise => exact l.perm_reverse .clockwise
  | counterclockwise => exact l.perm_reverse .counterclockwise
  | half =>
      change perm ⟨l, .half⟩ = (perm ⟨l, .half⟩)⁻¹
      rw [perm_half, mul_inv_rev, ← l.perm_reverse]
      exact (l.perm_mul_self .clockwise).symm

/-- Sends every sticker to the one that its color comes from in the sequence. -/
def Sequence.perm (s : Sequence) : Equiv.Perm Sticker := (s.map Move.perm).prod

namespace Sequence

@[simp]
theorem perm_nil : perm [] = 1 := rfl

@[simp]
theorem perm_cons (m : Move) (s : Sequence) : perm (m :: s) = m.perm * perm s := List.prod_cons

@[simp]
theorem perm_append (s t : Sequence) : perm (s ++ t) = perm s * perm t := by
  rw [perm, List.map_append, List.prod_append]
  rfl

@[simp]
theorem perm_inverse (s : Sequence) : perm s.inverse = (perm s)⁻¹ := by
  rw [perm, perm, List.prod_inv_reverse, inverse, List.map_map, List.map_map, List.map_reverse]
  congr 2
  exact List.map_congr_left fun m _ => m.perm_inverse

theorem perm_mem {H : Subgroup (Equiv.Perm Sticker)} (h : ∀ q : Quarter, q.perm ∈ H) (s : Sequence) :
    perm s ∈ H := by
  refine H.list_prod_mem fun x hx => ?_
  obtain ⟨m, _, rfl⟩ := List.mem_map.mp hx
  refine H.list_prod_mem fun y hy => ?_
  obtain ⟨q, _, rfl⟩ := List.mem_map.mp hy
  exact h q

end Sequence

namespace Cube

theorem get_turn (c : Cube) (qs : List Quarter) (p : Sticker) :
    (qs.foldl (fun c q => c.rewire q.wires) c).get p = c.get ((qs.map Quarter.perm).prod p) := by
  induction qs generalizing c with
  | nil => rfl
  | cons q qs ih =>
      rw [List.foldl_cons, ih, get_rewire, List.map_cons, List.prod_cons]
      rfl

theorem get_execute (c : Cube) (m : Move) (p : Sticker) : (c.execute m).get p = c.get (m.perm p) :=
  get_turn c m.quarters p

theorem get_run (c : Cube) (s : Sequence) (p : Sticker) : (c.run s).get p = c.get (Sequence.perm s p) := by
  induction s generalizing c with
  | nil => rfl
  | cons m s ih => rw [run_cons, ih, get_execute, Sequence.perm_cons, Equiv.Perm.mul_apply]

end Cube

/-! ## Undoing -/

theorem Move.inverse_inverse (m : Move) : m.inverse.inverse = m := by
  obtain ⟨l, turn⟩ := m
  cases turn <;> rfl

namespace Sequence

theorem inverse_inverse (s : Sequence) : s.inverse.inverse = s := by
  rw [inverse, inverse, ← List.map_reverse, List.reverse_reverse, List.map_map]
  exact (List.map_congr_left fun m _ => m.inverse_inverse).trans (List.map_id s)

theorem inverse_append (s t : Sequence) : inverse (s ++ t) = t.inverse ++ s.inverse := by
  rw [inverse, List.reverse_append, List.map_append]
  rfl

theorem run_inverse (c : Cube) (s : Sequence) : (c.run s).run s.inverse = c := by
  ext p
  rw [Cube.get_run, Cube.get_run, perm_inverse]
  exact congrArg c.get ((perm s).apply_symm_apply p)

/-- The inverse undoes a sequence, and a sequence its inverse, on every cube whatever its colors are. -/
theorem inverse_undoes (s t : Sequence) :
    (∀ c : Cube, (c.run s).run s.inverse = c ∧ (c.run s.inverse).run s = c) ∧
      s.inverse.inverse = s ∧ inverse (s ++ t) = t.inverse ++ s.inverse := by
  refine ⟨fun c => ⟨run_inverse c s, ?_⟩, s.inverse_inverse, inverse_append s t⟩
  have h := run_inverse c s.inverse
  rwa [s.inverse_inverse] at h

end Sequence
end Blindfold
