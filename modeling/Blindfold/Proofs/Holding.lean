import Blindfold.Proofs.Parity
import Blindfold.Proofs.Rearrangement

/-!
# How a scrambled cube is held

Rotations of the whole cube take each face as a whole to a face, so that one of them is determined by where two
faces come from (`Sequence.perm_eq_of_centers`). A cube that can be reached by moves can therefore be held upright
in one way only, and `Cube.orientation` finds it in at most seven rotations: `Cube.upright_unique`.
-/

namespace Blindfold

/-! ## Rotations -/

/-- A sequence of rotations of the whole cube. -/
def Sequence.IsRotation (s : Sequence) : Prop := ∀ m ∈ s, m.layer.isRotation

/-- The stickers of a face come from those of one face. -/
def KeepsFaces (f : Equiv.Perm Sticker) : Prop := ∀ p, f (.center p.face) = .center (f p).face

theorem KeepsFaces.one : KeepsFaces 1 := fun _ => rfl

theorem KeepsFaces.mul {f g : Equiv.Perm Sticker} (hf : KeepsFaces f) (hg : KeepsFaces g) : KeepsFaces (f * g) := by
  intro p
  rw [Equiv.Perm.mul_apply, Equiv.Perm.mul_apply, hg, hf]

theorem Axis.keepsFaces (a : Axis) (d : Direction) : KeepsFaces (Quarter.rotation a d).perm := by
  unfold KeepsFaces
  revert a d
  decide +kernel

theorem Axis.perm_center (a : Axis) (d : Direction) (f : Face) :
    (Quarter.rotation a d).perm (.center f) = .center (a.origin d f).1 := by
  revert a d f
  decide +kernel

/-- What holds of the quarter rotations, and of products, holds of every sequence of rotations. -/
theorem Sequence.IsRotation.perm_induct {P : Equiv.Perm Sticker → Prop} (one : P 1)
    (mul : ∀ {f g}, P f → P g → P (f * g)) (quarter : ∀ a d, P (Quarter.rotation a d).perm) {s : Sequence}
    (h : s.IsRotation) : P (perm s) := by
  have move {m : Move} (hm : m.layer.isRotation) : P m.perm := by
    obtain ⟨l, turn⟩ := m
    cases l with
    | rotation a =>
        cases turn with
        | clockwise => exact mul (quarter a .clockwise) one
        | counterclockwise => exact mul (quarter a .counterclockwise) one
        | half => exact mul (quarter a .clockwise) (mul (quarter a .clockwise) one)
    | face | wide | slice => cases hm
  induction s with
  | nil => exact one
  | cons m s ih =>
      obtain ⟨hm, hs⟩ := List.forall_mem_cons.mp h
      rw [perm_cons]
      exact mul (move hm) (ih hs)

theorem Sequence.IsRotation.keepsFaces {s : Sequence} (h : s.IsRotation) : KeepsFaces (perm s) :=
  h.perm_induct .one .mul Axis.keepsFaces

/-- Two faces of a piece, in their order around it, tell which of its stickers is meant. -/
theorem Sticker.eq_of_faces {p q : Sticker} (hf : p.face = q.face) (hk : p.kind? = q.kind?)
    (hn : p.next.face = q.next.face) : p = q := by
  revert p q
  decide +kernel

section

variable {f g : Equiv.Perm Sticker} (hf : f ∈ Rigid) (hg : g ∈ Rigid) (kf : KeepsFaces f) (kg : KeepsFaces g)

include hf hg kf kg

theorem KeepsFaces.apply_eq {p : Sticker} (h : f (.center p.face) = g (.center p.face))
    (hn : f (.center p.next.face) = g (.center p.next.face)) : f p = g p := by
  rw [kf, kg] at h hn
  refine Sticker.eq_of_faces (Sticker.center_injective h) ?_ ?_
  · rw [Rigid.kind? hf, Rigid.kind? hg]
  · rw [← mem_rigid_iff.mp hf, ← mem_rigid_iff.mp hg]
    exact Sticker.center_injective hn

/-- Two faces around a corner determine the third. -/
theorem KeepsFaces.apply_center_eq {p : Sticker} (h : f (.center p.face) = g (.center p.face))
    (hn : f (.center p.next.face) = g (.center p.next.face)) :
    f (.center p.next.next.face) = g (.center p.next.next.face) := by
  have hp := apply_eq hf hg kf kg h hn
  rw [kf, kg, mem_rigid_iff.mp hf, mem_rigid_iff.mp hf, mem_rigid_iff.mp hg, mem_rigid_iff.mp hg, hp]

theorem KeepsFaces.eq_of_centers (hU : f (.center .U) = g (.center .U)) (hF : f (.center .F) = g (.center .F)) :
    f = g := by
  -- Around corners the two faces lead to all others.
  have third {p : Sticker} := apply_center_eq (p := p) hf hg kf kg
  have hL : f (.center .L) = g (.center .L) := third (p := ⟨.U, 2, 0⟩) hU hF
  have hR : f (.center .R) = g (.center .R) := third (p := ⟨.F, 0, 2⟩) hF hU
  have hB : f (.center .B) = g (.center .B) := third (p := ⟨.U, 0, 0⟩) hU hL
  have hD : f (.center .D) = g (.center .D) := third (p := ⟨.L, 2, 2⟩) hL hF
  have hall (h : Face) : f (.center h) = g (.center h) := by cases h <;> assumption
  exact Equiv.ext fun p => apply_eq hf hg kf kg (hall _) (hall _)

end

theorem Sequence.perm_eq_of_centers {r s : Sequence} (hr : r.IsRotation) (hs : s.IsRotation)
    (hU : perm r (.center .U) = perm s (.center .U)) (hF : perm r (.center .F) = perm s (.center .F)) :
    perm r = perm s :=
  KeepsFaces.eq_of_centers r.perm_rigid s.perm_rigid hr.keepsFaces hs.keepsFaces hU hF

/-! ## The centers of a scrambled cube -/

def Face.opposite : Face → Face
  | U => D | D => U | L => R | R => L | F => B | B => F

theorem Axis.origin_opposite (a : Axis) (d : Direction) (f : Face) :
    (a.origin d f.opposite).1 = (a.origin d f).1.opposite := by
  cases a <;> cases d <;> cases f <;> rfl

theorem Axis.perm_quarter (a : Axis) (d : Direction) : (a.quarter d).perm = (Quarter.rotation a d).perm := by
  cases d <;> rfl

theorem Axis.perm_quarter_center (a : Axis) (d : Direction) (f : Face) :
    Sequence.perm [a.quarter d] (.center f) = .center (a.origin d f).1 := by
  rw [Sequence.perm_cons, Sequence.perm_nil, mul_one, a.perm_quarter, a.perm_center]

theorem Quarter.centers_opposite (q : Quarter) (f : Face) :
    Rigid.centers q.rigid f.opposite = (Rigid.centers q.rigid f).opposite := by
  have hc (g : Face) : Rigid.centers q.rigid g = (Sequence.perm q.carried (.center g)).face :=
    congrArg Sticker.face (q.perm_carried ((Sticker.kind?_eq_none_iff _).mpr rfl)).symm
  rw [hc, hc]
  -- A face moves no center; a slice moves them as a rotation about its axis does.
  rcases q with ⟨g | s, d⟩ | ⟨a, d⟩
  · rfl
  · rw [carried, Axis.perm_quarter_center, Axis.perm_quarter_center]
    exact s.axis.origin_opposite _ f
  · rw [carried, Axis.perm_quarter_center, Axis.perm_quarter_center]
    exact a.origin_opposite d f

/-- Centers that were opposite to each other stay so. -/
theorem Sequence.centers_opposite (s : Sequence) (f : Face) :
    Rigid.centers s.rigid f.opposite = (Rigid.centers s.rigid f).opposite := by
  rw [rigid_eq_prod]
  induction s.quarters with
  | nil =>
      rw [List.map_nil, List.prod_nil, map_one]
      rfl
  | cons q qs ih =>
      rw [List.map_cons, List.prod_cons, map_mul, Equiv.Perm.mul_apply, ih, q.centers_opposite]
      rfl

namespace Cube

theorem center_run (c : Cube) (s : Sequence) (f : Face) :
    (c.run s).center f = c.center (Rigid.centers s.rigid f) := by
  rw [center, get_run]
  exact congrArg c.get (Rigid.apply_centers s.rigid f)

theorem center_solved (f : Face) : solved.center f = f.solvedColor := get_solved _

/-- A cube to which moves lead from the solved one. -/
def Reachable (c : Cube) : Prop := ∃ s, c = solved.run s

namespace Reachable

variable {c : Cube}

theorem run (h : c.Reachable) (s : Sequence) : (c.run s).Reachable := by
  obtain ⟨t, rfl⟩ := h
  exact ⟨t ++ s, (run_append solved t s).symm⟩

theorem isLegal (h : c.Reachable) : c.isLegal := by
  obtain ⟨s, rfl⟩ := h
  rw [isLegal_run, isLegal_solved]

/-- The centers are those of the solved cube, moved so that opposite ones stay opposite. -/
theorem exists_centers (h : c.Reachable) : ∃ κ : Equiv.Perm Face,
    (∀ f, c.center f = (κ f).solvedColor) ∧ ∀ f, κ f.opposite = (κ f).opposite := by
  obtain ⟨s, rfl⟩ := h
  exact ⟨Rigid.centers s.rigid, fun f => by rw [center_run, center_solved], s.centers_opposite⟩

theorem exists_center (h : c.Reachable) (color : Color) : ∃ f, c.center f = color := by
  obtain ⟨κ, hκ, -⟩ := h.exists_centers
  have hs : ∃ g : Face, g.solvedColor = color := by cases color <;> decide
  obtain ⟨g, rfl⟩ := hs
  obtain ⟨f, rfl⟩ := κ.surjective g
  exact ⟨f, hκ f⟩

theorem center_injective (h : c.Reachable) : Function.Injective c.center := by
  obtain ⟨κ, hκ, -⟩ := h.exists_centers
  intro f g he
  rw [hκ, hκ] at he
  exact κ.injective (Face.solvedColor_injective he)

/-- When white is on top, green is on one of the sides. -/
theorem center_ne_green (h : c.Reachable) (hU : c.center .U = .white) : c.center .U ≠ .green ∧ c.center .D ≠ .green := by
  obtain ⟨κ, hκ, hopp⟩ := h.exists_centers
  have hUU : κ .U = .U := Face.solvedColor_injective ((hκ .U).symm.trans hU)
  have hDD : κ .D = .D := (hopp .U).trans (congrArg Face.opposite hUU)
  rw [hU, hκ, hDD]
  exact ⟨nofun, nofun⟩

end Reachable

/-! ## Turning to the front -/

variable {c : Cube} {color : Color} {f : Face} {limit k : Nat}

theorem center_execute_rotation (c : Cube) (a : Axis) (f : Face) :
    (c.execute ⟨.rotation a, .clockwise⟩).center f = c.center (a.origin .clockwise f).1 := by
  rw [center, get_execute]
  exact congrArg c.get (a.perm_center .clockwise f)

theorem execute_half (c : Cube) (l : Layer) :
    c.execute ⟨l, .half⟩ = (c.execute ⟨l, .clockwise⟩).execute ⟨l, .clockwise⟩ := List.foldl_append

theorem center_execute_quarterY (c : Cube) (f : Face) :
    (c.execute quarterY).center f = c.center (Axis.origin .y .clockwise f).1 := c.center_execute_rotation .y f

theorem center_run_quarters (c : Cube) (k : Nat) (h : f = .U ∨ f = .D) :
    (c.run (.replicate k quarterY)).center f = c.center f := by
  induction k generalizing c with
  | zero => rfl
  | succ k ih =>
      rw [List.replicate_succ, run_cons, ih, center_execute_quarterY]
      rcases h with rfl | rfl <;> rfl

theorem exists_quarters (c : Cube) (hU : f ≠ .U) (hD : f ≠ .D) :
    ∃ k < 4, (c.run (.replicate k quarterY)).center .F = c.center f := by
  -- The sides come to the front in turn: `F`, `R`, `B`, `L`.
  have steps (k : Nat) : (c.run (.replicate k quarterY)).center .F =
      c.center ((fun f => (Axis.origin .y .clockwise f).1)^[k] .F) := by
    induction k generalizing c with
    | zero => rfl
    | succ k ih => rw [List.replicate_succ, run_cons, ih, center_execute_quarterY, Function.iterate_succ_apply']
  cases f with
  | U => exact absurd rfl hU
  | D => exact absurd rfl hD
  | F => exact ⟨0, by decide, steps 0⟩
  | R => exact ⟨1, by decide, steps 1⟩
  | B => exact ⟨2, by decide, steps 2⟩
  | L => exact ⟨3, by decide, steps 3⟩

theorem exists_untilFront (hk : k < limit) (h : (c.run (.replicate k quarterY)).center .F = color) :
    ∃ j ≤ k, untilFront color limit c = .replicate j quarterY ∧ (c.run (.replicate j quarterY)).center .F = color := by
  induction limit generalizing c k with
  | zero => cases hk
  | succ limit ih =>
      rw [untilFront]
      split
      · rename_i hc
        exact ⟨0, Nat.zero_le k, rfl, hc⟩
      · rename_i hc
        cases k with
        | zero => exact absurd h hc
        | succ k =>
            rw [List.replicate_succ, run_cons] at h
            obtain ⟨j, hj, hq, hf⟩ := ih (Nat.lt_of_succ_lt_succ hk) h
            rw [← run_cons, ← List.replicate_succ] at hf
            exact ⟨j + 1, Nat.succ_le_succ hj, by rw [hq, List.replicate_succ], hf⟩

/-- A color on a side comes to the front within three quarters. -/
theorem exists_untilFront_of_side (hU : f ≠ .U) (hD : f ≠ .D) (h : c.center f = color) :
    ∃ j ≤ 3, untilFront color 4 c = .replicate j quarterY ∧ (c.run (.replicate j quarterY)).center .F = color := by
  obtain ⟨k, hk, hf⟩ := c.exists_quarters hU hD
  obtain ⟨j, hj, hq⟩ := exists_untilFront hk (hf.trans h)
  exact ⟨j, hj.trans (Nat.le_of_lt_succ hk), hq⟩

/-! ## Upright -/

theorem isRotation_untilFront (color : Color) (limit : Nat) (c : Cube) : (untilFront color limit c).IsRotation := by
  induction limit generalizing c with
  | zero => exact List.forall_mem_nil _
  | succ limit ih =>
      rw [untilFront]
      split
      · exact List.forall_mem_nil _
      · exact List.forall_mem_cons.mpr ⟨rfl, ih _⟩

theorem isRotation_untilWhiteUp (c : Cube) : c.untilWhiteUp.IsRotation := by
  rw [untilWhiteUp]
  split
  · exact List.forall_mem_nil _
  · split
    · exact List.forall_mem_singleton.mpr rfl
    · exact List.forall_mem_append.mpr ⟨isRotation_untilFront _ _ c, List.forall_mem_singleton.mpr rfl⟩

/-- Whatever the colors are, a cube is held upright by rotations only. -/
theorem isRotation_orientation (c : Cube) : c.orientation.IsRotation :=
  List.forall_mem_append.mpr ⟨c.isRotation_untilWhiteUp, isRotation_untilFront _ _ _⟩

theorem Reachable.untilWhiteUp (h : c.Reachable) :
    (c.run c.untilWhiteUp).center .U = .white ∧ c.untilWhiteUp.length ≤ 4 := by
  rw [Cube.untilWhiteUp]
  split
  · exact ⟨‹_›, Nat.zero_le 4⟩
  · split
    · rename_i hD
      refine ⟨?_, by decide⟩
      rw [run_cons, run_nil, execute_half, center_execute_rotation, center_execute_rotation]
      exact hD
    · rename_i hU hD
      obtain ⟨f, hf⟩ := h.exists_center .white
      obtain ⟨j, hj, hq, hF⟩ := exists_untilFront_of_side (by rintro rfl; exact hU hf) (by rintro rfl; exact hD hf) hf
      rw [hq]
      constructor
      · rw [run_append, run_cons, run_nil, center_execute_rotation]
        exact hF
      · rw [List.length_append, List.length_replicate]
        exact Nat.succ_le_succ hj

theorem Reachable.orientation (h : c.Reachable) : c.upright.center .U = .white ∧ c.upright.center .F = .green ∧
    c.orientation.IsRotation ∧ c.orientation.length ≤ 7 := by
  obtain ⟨hU, hl⟩ := h.untilWhiteUp
  obtain ⟨f, hf⟩ := (h.run c.untilWhiteUp).exists_center .green
  obtain ⟨hgU, hgD⟩ := (h.run c.untilWhiteUp).center_ne_green hU
  obtain ⟨j, hj, hq, hF⟩ := exists_untilFront_of_side (by rintro rfl; exact hgU hf) (by rintro rfl; exact hgD hf) hf
  have ho : c.orientation = c.untilWhiteUp ++ .replicate j quarterY := by rw [Cube.orientation, hq]
  refine ⟨?_, ?_, c.isRotation_orientation, ?_⟩
  · rw [upright, ho, run_append]
    exact (center_run_quarters _ j (.inl rfl)).trans hU
  · rw [upright, ho, run_append]
    exact hF
  · rw [ho, List.length_append, List.length_replicate]
    omega

theorem orientation_eq_nil (hU : c.center .U = .white) (hF : c.center .F = .green) : c.orientation = [] := by
  rw [orientation, untilWhiteUp, if_pos hU, untilFront, run_nil, if_pos hF]
  rfl

/-- Rotations cannot hold a cube upright in two ways. -/
theorem Reachable.run_eq_run (h : c.Reachable) {r s : Sequence} (hr : r.IsRotation) (hs : s.IsRotation)
    (hU : (c.run r).center .U = (c.run s).center .U) (hF : (c.run r).center .F = (c.run s).center .F) :
    c.run r = c.run s := by
  have hcenter {f : Face} (hf : (c.run r).center f = (c.run s).center f) :
      Sequence.perm r (.center f) = Sequence.perm s (.center f) := by
    rw [center_run, center_run] at hf
    have he : Rigid.centers r.rigid f = Rigid.centers s.rigid f := h.center_injective hf
    exact (Rigid.apply_centers r.rigid f).trans (he ▸ (Rigid.apply_centers s.rigid f).symm)
  rw [run_eq_reindex, run_eq_reindex, Sequence.perm_eq_of_centers hr hs (hcenter hU) (hcenter hF)]

theorem Reachable.upright_run (h : c.Reachable) {r : Sequence} (hr : r.IsRotation) : (c.run r).upright = c.upright := by
  obtain ⟨hU, hF, ho, -⟩ := h.orientation
  obtain ⟨hU', hF', ho', -⟩ := (h.run r).orientation
  rw [upright, ← run_append] at hU' hF' ⊢
  exact h.run_eq_run (List.forall_mem_append.mpr ⟨hr, ho'⟩) ho (hU'.trans hU.symm) (hF'.trans hF.symm)

/-! ## Holding in place -/

theorem executeNoting?_eq (h : c.isLegal) (s : Sequence) (m : Move) :
    executeNoting? (c, s) m = some (c.execute m, s ++ [m]) := by
  rw [executeNoting?, execute?_eq, if_pos h, Option.map_some]

theorem turnToFront?_eq (h : c.isLegal) (s : Sequence) (limit : Nat) :
    turnToFront? color limit (c, s) =
      some (c.run (untilFront color limit c), s ++ untilFront color limit c) := by
  induction limit generalizing c s with
  | zero => rw [turnToFront?, untilFront, run_nil, List.append_nil]
  | succ limit ih =>
      rw [turnToFront?, untilFront]
      split
      · rw [run_nil, List.append_nil]
      · rw [executeNoting?_eq h, Option.bind_some, ih (by rw [isLegal_execute, h]), run_cons, List.append_assoc,
          List.singleton_append]

theorem turnWhiteUp?_eq (h : c.isLegal) : c.turnWhiteUp? = some (c.run c.untilWhiteUp, c.untilWhiteUp) := by
  rw [turnWhiteUp?, untilWhiteUp]
  split
  · rw [run_nil]
  · split
    · rw [executeNoting?_eq h, run_cons, run_nil, List.nil_append]
    · rw [turnToFront?_eq h, Option.bind_some, executeNoting?_eq (by rw [isLegal_run, h]), List.nil_append,
        run_append, run_cons, run_nil]

/-- Holding a legal cube upright in place does the rotations that `orientation` finds. -/
theorem holdUpright?_eq (h : c.isLegal) : c.holdUpright? = some (c.upright, c.orientation) := by
  rw [holdUpright?, turnWhiteUp?_eq h, Option.bind_some, turnToFront?_eq (by rw [isLegal_run, h]), ← run_append]
  rfl

/-- A scrambled cube is held upright, white on top and green in front, by at most seven rotations of the whole cube.
Once upright it stays as it is, and it comes out the same however it was held before. -/
theorem upright_unique (h : c.Reachable) :
    c.holdUpright? = some (c.upright, c.orientation) ∧ c.run c.orientation = c.upright ∧
    c.upright.center .U = .white ∧ c.upright.center .F = .green ∧
    c.orientation.IsRotation ∧ c.orientation.length ≤ 7 ∧
    c.upright.holdUpright? = some (c.upright, []) ∧
    ∀ r : Sequence, r.IsRotation → (c.run r).upright = c.upright := by
  obtain ⟨hU, hF, hr, hl⟩ := h.orientation
  refine ⟨holdUpright?_eq h.isLegal, rfl, hU, hF, hr, hl, ?_, fun r hr => h.upright_run hr⟩
  have hlegal : c.upright.isLegal := (h.run c.orientation).isLegal
  have ho : c.upright.orientation = [] := orientation_eq_nil hU hF
  have hu : c.upright.upright = c.upright := by rw [upright, ho, run_nil]
  rw [holdUpright?_eq hlegal, ho, hu]

theorem upright_unique_slice : ∃ c : Cube, c.Reachable ∧ ∃ r : Sequence, r.IsRotation ∧
    c.orientation = [⟨.rotation .x, .clockwise⟩] ∧
    c.holdUpright? = some (c.upright, [⟨.rotation .x, .clockwise⟩]) ∧ (c.run r).upright = c.upright := by
  have h : Reachable (solved.run [⟨.slice .M, .clockwise⟩]) := ⟨_, rfl⟩
  have hz : Sequence.IsRotation [⟨.rotation .z, .counterclockwise⟩] := List.forall_mem_singleton.mpr rfl
  have ho : orientation (solved.run [⟨.slice .M, .clockwise⟩]) = [⟨.rotation .x, .clockwise⟩] := by decide +kernel
  obtain ⟨hhold, -, -, -, -, -, -, hr⟩ := upright_unique h
  rw [ho] at hhold
  exact ⟨_, h, _, hz, ho, hhold, hr _ hz⟩

end Cube
end Blindfold
