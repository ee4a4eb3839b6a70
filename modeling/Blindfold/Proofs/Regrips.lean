import Mathlib.Algebra.Group.End
import Blindfold.Proofs.Holding
import Blindfold.Proofs.Layers

/-!
# Moves seen from another side

When a cube is rotated, a move is done and the rotation is undone, a move of the same kind has been done for another
face: the one whose center the rotation brings to where the first move was done. A face turns as the whole cube does
where the face is (`Face.quarter_apply`), so that all of this follows from what rotations do: `Cube.run_regripped`.
-/

namespace Blindfold

/-! ## The same move for another face -/

def Face.axis : Face → Axis
  | R => .x | L => .x | U => .y | D => .y | F => .z | B => .z

/-- The face with which a layer turns. -/
def Layer.leader : Layer → Face
  | face f => f
  | wide f => f
  | slice .M => .L
  | slice .S => .F
  | slice .E => .D
  | rotation a => a.front

/-- The layer of the same kind that turns with a face or, if there is none, with the opposite one. -/
def Layer.toward (f : Face) : Layer → Layer
  | face _ => face f
  | wide _ => wide f
  | slice _ => slice f.sliceBehind.1
  | rotation _ => rotation f.axis

/-- The move of the same kind that, seen from a face, is what this one is seen from the face it turns with. -/
def Move.toward (f : Face) (m : Move) : Move where
  layer := m.layer.toward f
  turn := if (m.layer.toward f).leader = f then m.turn else m.turn.inverse

theorem Move.toward_leader (m : Move) : m.toward m.layer.leader = m := by
  obtain ⟨l, turn⟩ := m
  rcases l with f | f | s | a
  · simp [toward, Layer.toward, Layer.leader]
  · simp [toward, Layer.toward, Layer.leader]
  · cases s <;> rfl
  · cases a <;> rfl

/-- A turn as a number of clockwise quarters. -/
def Turn.exponent : Turn → ℤ
  | clockwise => 1
  | counterclockwise => -1
  | half => 2

theorem Move.perm_eq_zpow (m : Move) : m.perm = m.layer.perm .clockwise ^ m.turn.exponent := by
  obtain ⟨l, turn⟩ := m
  cases turn with
  | clockwise => exact (zpow_one _).symm
  | counterclockwise => exact (l.perm_reverse .clockwise).trans (zpow_neg_one _).symm
  | half => exact (perm_half l).trans (zpow_two _).symm

/-- Sends every sticker to the one that its color comes from when the layer toward a face turns clockwise, seen from
that face. -/
def Layer.permToward (l : Layer) (f : Face) : Equiv.Perm Sticker := Move.perm (Move.toward f ⟨l, .clockwise⟩)

theorem Move.perm_toward (m : Move) (f : Face) : (m.toward f).perm = m.layer.permToward f ^ m.turn.exponent := by
  obtain ⟨l, turn⟩ := m
  have hcw : perm ⟨l.toward f, .clockwise⟩ = (l.toward f).perm .clockwise := rfl
  have hinv (t : Turn) : perm ⟨l.toward f, t.inverse⟩ = (perm ⟨l.toward f, t⟩)⁻¹ := perm_inverse ⟨l.toward f, t⟩
  simp only [Layer.permToward, toward]
  split
  · rw [hcw, perm_eq_zpow]
  · rw [hinv, hinv, hcw, perm_eq_zpow, inv_zpow]

/-! ## Layers as parts of a rotation -/

/-- The rotation of the whole cube that turns a face clockwise. -/
def Face.rotation (f : Face) : Move :=
  f.axis.quarter (if f.axis.front = f then .clockwise else .counterclockwise)

/-- The clockwise quarter turn of a face. -/
def Face.quarter (f : Face) : Equiv.Perm Sticker := (Quarter.slab (.face f) .clockwise).perm

/-- The sticker is on a piece that has a sticker on the face. -/
def Sticker.Touches (p : Sticker) (f : Face) : Prop := p.face = f ∨ p.next.face = f ∨ p.next.next.face = f

instance (p : Sticker) (f : Face) : Decidable (p.Touches f) := inferInstanceAs (Decidable (_ ∨ _ ∨ _))

/-- A face turns as the whole cube does where the face is. -/
theorem Face.quarter_apply (f : Face) (p : Sticker) : f.quarter p = if p.Touches f then f.rotation.perm p else p := by
  revert f p
  decide +kernel

theorem Layer.permToward_face (f g : Face) : (face g).permToward f = f.quarter := by
  cases f <;> rfl

theorem Layer.permToward_rotation (a : Axis) (f : Face) : (rotation a).permToward f = f.rotation.perm := by
  cases f <;> rfl

theorem Layer.permToward_wide (f g : Face) (s : Slice) :
    (wide g).permToward f = f.quarter * (slice s).permToward f := by
  cases f <;> exact perm_wide _ .clockwise

/-- The face, the slice behind it and the opposite face turn together. -/
theorem Face.perm_rotation (f : Face) (s : Slice) :
    f.rotation.perm = f.quarter * (Layer.slice s).permToward f * f.opposite.quarter⁻¹ := by
  have front (a : Axis) := a.perm_rotation
  have back (a : Axis) : (Quarter.rotation a .counterclockwise).perm = a.back.quarter *
      (Quarter.slab (.slice a.front.sliceBehind.1) (a.front.sliceSense .clockwise).reverse).perm *
      a.front.quarter⁻¹ := by
    have hr : (Quarter.rotation a .counterclockwise).perm = (Quarter.rotation a .clockwise).perm⁻¹ :=
      Quarter.perm_reverse (.rotation a .clockwise)
    have hb : (Quarter.slab (.face a.back) .counterclockwise).perm⁻¹ = a.back.quarter :=
      (Quarter.perm_reverse (.slab (.face a.back) .counterclockwise)).symm
    have hs := Quarter.perm_reverse (.slab (.slice a.front.sliceBehind.1) (a.front.sliceSense .clockwise))
    rw [hr, a.perm_rotation, mul_inv_rev, mul_inv_rev, hb, ← hs, mul_assoc]
    rfl
  cases f with
  | R => exact front .x
  | U => exact front .y
  | F => exact front .z
  | L => exact back .x
  | D => exact back .y
  | B => exact back .z

theorem Layer.permToward_slice (f : Face) (s : Slice) :
    (slice s).permToward f = f.quarter⁻¹ * f.rotation.perm * f.opposite.quarter := by
  rw [f.perm_rotation s, mul_assoc f.quarter, inv_mul_cancel_left, inv_mul_cancel_right]

/-! ## Rotating first and back afterwards -/

theorem Axis.conj_rotation (a : Axis) (d : Direction) (f : Face) :
    MulAut.conj (Quarter.rotation a d).perm f.rotation.perm = (a.origin d f).1.rotation.perm := by
  -- Both sides are rotations, so two centers tell whether they are the same.
  have h : Sequence.perm [a.quarter d, f.rotation, a.quarter d.reverse] = Sequence.perm [(a.origin d f).1.rotation] := by
    refine Sequence.perm_eq_of_centers ?_ ?_ ?_ ?_
    · simp [Sequence.IsRotation, quarter, Face.rotation, Layer.isRotation]
    · simp [Sequence.IsRotation, quarter, Face.rotation, Layer.isRotation]
    · simp only [Sequence.perm_cons, Sequence.perm_nil, mul_one, Equiv.Perm.mul_apply, Face.rotation, perm_quarter,
        perm_center]
      cases a <;> cases d <;> cases f <;> rfl
    · simp only [Sequence.perm_cons, Sequence.perm_nil, mul_one, Equiv.Perm.mul_apply, Face.rotation, perm_quarter,
        perm_center]
      cases a <;> cases d <;> cases f <;> rfl
  have hr : (Quarter.rotation a d.reverse).perm = (Quarter.rotation a d).perm⁻¹ := Quarter.perm_reverse (.rotation a d)
  simpa only [Sequence.perm_cons, Sequence.perm_nil, mul_one, perm_quarter, hr, ← mul_assoc, MulAut.conj_apply] using h

namespace Sequence

/-- The face whose center a sequence brings to a face. -/
def centerFrom (s : Sequence) (f : Face) : Face := Rigid.centers s.rigid f

theorem perm_center (s : Sequence) (f : Face) : perm s (.center f) = .center (s.centerFrom f) :=
  Rigid.apply_centers s.rigid f

namespace IsRotation

variable {r : Sequence} (hr : r.IsRotation)

include hr

theorem touches_perm (p : Sticker) (f : Face) : (perm r p).Touches (r.centerFrom f) ↔ p.Touches f := by
  have hface (q : Sticker) : (perm r q).face = r.centerFrom f ↔ q.face = f := by
    rw [← Sticker.center_injective.eq_iff, ← hr.keepsFaces, ← perm_center, (perm r).injective.eq_iff,
      Sticker.center_injective.eq_iff]
  have hnext := mem_rigid_iff.mp r.perm_rigid
  simp only [Sticker.Touches, ← hnext, hface]

theorem conj_rotation (f : Face) : MulAut.conj (perm r) f.rotation.perm = (r.centerFrom f).rotation.perm := by
  -- The face is carried along the induction: it decides which rotation the next step meets.
  have h : ∀ f, ∃ g, perm r (.center f) = .center g ∧ MulAut.conj (perm r) f.rotation.perm = g.rotation.perm := by
    refine hr.perm_induct (P := fun ρ => ∀ f, ∃ g, ρ (.center f) = .center g ∧
      MulAut.conj ρ f.rotation.perm = g.rotation.perm) ?one ?mul ?quarter
    case one => exact fun f => ⟨f, rfl, by rw [map_one, MulAut.one_apply]⟩
    case mul =>
        intro ρ σ hρ hσ f
        obtain ⟨g, hg, hfg⟩ := hσ f
        obtain ⟨h, hh, hgh⟩ := hρ g
        exact ⟨h, by rw [Equiv.Perm.mul_apply, hg, hh], by rw [map_mul, MulAut.mul_apply, hfg, hgh]⟩
    case quarter => exact fun a d f => ⟨_, a.perm_center d f, a.conj_rotation d f⟩
  obtain ⟨g, hg, hfg⟩ := h f
  rw [perm_center] at hg
  rw [hfg, Sticker.center_injective hg]

theorem conj_quarter (f : Face) : MulAut.conj (perm r) f.quarter = (r.centerFrom f).quarter := by
  have h (p : Sticker) : perm r (f.quarter p) = (r.centerFrom f).quarter (perm r p) := by
    simp only [Face.quarter_apply, hr.touches_perm, ← hr.conj_rotation, MulAut.conj_apply]
    split
    · simp
    · rfl
  ext1 p
  rw [MulAut.conj_apply, Equiv.Perm.mul_apply, Equiv.Perm.mul_apply, h]
  exact congrArg _ ((perm r).apply_symm_apply p)

theorem conj_permToward (l : Layer) (f : Face) :
    MulAut.conj (perm r) (l.permToward f) = l.permToward (r.centerFrom f) := by
  have hslice (s : Slice) :
      MulAut.conj (perm r) ((Layer.slice s).permToward f) = (Layer.slice s).permToward (r.centerFrom f) := by
    have hopp : r.centerFrom f.opposite = (r.centerFrom f).opposite := r.centers_opposite f
    rw [Layer.permToward_slice, Layer.permToward_slice, map_mul, map_mul, map_inv, hr.conj_quarter, hr.conj_quarter,
      hr.conj_rotation, hopp]
  cases l with
  | face g => rw [Layer.permToward_face, Layer.permToward_face, hr.conj_quarter]
  | wide g => rw [Layer.permToward_wide _ _ .M, Layer.permToward_wide _ _ .M, map_mul, hr.conj_quarter, hslice]
  | slice s => exact hslice s
  | rotation a => rw [Layer.permToward_rotation, Layer.permToward_rotation, hr.conj_rotation]

theorem conj_perm (m : Move) : MulAut.conj (perm r) m.perm = (m.toward (r.centerFrom m.layer.leader)).perm := by
  have h : m.perm = (m.toward m.layer.leader).perm := by rw [m.toward_leader]
  rw [h, Move.perm_toward, map_zpow, hr.conj_permToward, ← Move.perm_toward]

theorem perm_between (s : Sequence) :
    perm (r ++ s ++ r.inverse) = perm (s.map fun m => m.toward (r.centerFrom m.layer.leader)) := by
  rw [perm_append, perm_append, perm_inverse, ← MulAut.conj_apply]
  induction s with
  | nil => exact map_one _
  | cons m s ih => rw [perm_cons, map_mul, hr.conj_perm, ih, List.map_cons, perm_cons]

end IsRotation
end Sequence

namespace Cube

/-- Whatever the colors are, a move between rotations of the whole cube and their undoing is a move of the same kind,
done for the face whose center the rotations bring to where the move is done; and so for a whole sequence. -/
theorem run_regripped {r : Sequence} (hr : r.IsRotation) : ∃ κ : Face → Face,
    (∀ (c : Cube) (f : Face), (c.run r).center f = c.center (κ f)) ∧
    (∀ (c : Cube) (m : Move), c.run (r ++ [m] ++ r.inverse) = c.execute (m.toward (κ m.layer.leader)) ∧
      c.run? (r ++ [m] ++ r.inverse) = c.execute? (m.toward (κ m.layer.leader))) ∧
    ∀ (c : Cube) (s : Sequence), c.run (r ++ s ++ r.inverse) = c.run (s.map fun m => m.toward (κ m.layer.leader)) := by
  refine ⟨r.centerFrom, fun c f => c.center_run r f, fun c m => ?_, fun c s => run_congr (hr.perm_between s) c⟩
  have h := (hr.perm_between [m]).trans (mul_one _)
  exact ⟨run_eq_execute h c, run?_eq_execute? (by simp) h c⟩

theorem run_regripped_slice : Sequence.IsRotation [⟨.rotation .z, .clockwise⟩, ⟨.rotation .y, .counterclockwise⟩] ∧
    ∀ c : Cube, c.run [⟨.rotation .z, .clockwise⟩, ⟨.rotation .y, .counterclockwise⟩, ⟨.slice .M, .clockwise⟩,
      ⟨.rotation .y, .clockwise⟩, ⟨.rotation .z, .counterclockwise⟩] = c.execute ⟨.slice .S, .counterclockwise⟩ := by
  have hr : Sequence.IsRotation [⟨.rotation .z, .clockwise⟩, ⟨.rotation .y, .counterclockwise⟩] := by
    simp [Sequence.IsRotation, Layer.isRotation]
  obtain ⟨κ, hc, hm, -⟩ := run_regripped hr
  have hκ : κ .L = .B := by
    refine Face.solvedColor_injective ?_
    rw [← center_solved, ← hc]
    decide +kernel
  refine ⟨hr, fun c => ?_⟩
  have h := (hm c ⟨.slice .M, .clockwise⟩).1
  rw [show κ (Move.mk (.slice .M) .clockwise).layer.leader = .B from hκ] at h
  exact h

end Cube
end Blindfold
