import Mathlib.Data.List.FinRange
import Mathlib.GroupTheory.Perm.List
import Blindfold.Cube.InPlace
import Blindfold.Proofs.Pieces

/-!
# Turns only rearrange the stickers

Turning in place loses no color and doubles none: it does what the wires say (`Cube.turn_eq_rewire`), and so
the check after each layer never fails on a legal cube (`Cube.run?_eq`). For a whole sequence see
`Sequence.exists_rearrangement`.
-/

namespace Blindfold

/-! ## Overwriting stickers -/

namespace Cube

theorem get_set (c : Cube) (p q : Sticker) (color : Color) :
    (c.set p color).get q = if q = p then color else c.get q := by
  have hi : q = p ↔ (p.index : Nat) = q.index := by
    rw [Fin.val_inj]
    exact ⟨fun h => h ▸ rfl, fun h => by rw [← p.ofIndex_index, h, q.ofIndex_index]⟩
  simp only [get, set, hi]
  exact Vector.getElem_set p.index.isLt q.index.isLt

theorem get_write {c old : Cube} {wires : Wires} (h : (wires.map Prod.fst).Nodup) (p : Sticker) :
    (c.write old wires).get p = ((wires.lookup p).map old.get).getD (c.get p) := by
  induction wires generalizing c with
  | nil => rfl
  | cons w wires ih =>
      obtain ⟨hw, hn⟩ := List.nodup_cons.mp h
      change ((c.set w.1 (old.get w.2)).write old wires).get p = _
      rw [ih hn, List.lookup_cons]
      by_cases hp : p = w.1
      · -- Nothing that comes later is written on this sticker.
        have hl : wires.lookup p = none := by
          rw [List.lookup_eq_none_iff]
          intro v hv
          exact bne_iff_ne.mpr fun he => hw (hp ▸ he ▸ List.mem_map_of_mem hv)
        rw [hl, get_set, if_pos hp, hp, beq_self_eq_true]
        rfl
      · rw [get_set, if_neg hp, beq_eq_false_iff_ne.mpr hp]

theorem write_self {c : Cube} {wires : Wires} (h : (wires.map Prod.fst).Nodup) :
    c.write c wires = c.rewire wires := by
  ext p
  rw [get_write h, get_rewire, Wires.source]
  cases wires.lookup p <;> rfl

theorem get_passOn (first : Color) (c : Cube) {p : Sticker} {ring : List Sticker} (h : (p :: ring).Nodup)
    (q : Sticker) : (passOn first c (p :: ring)).get q =
      if q = (p :: ring).getLast (List.cons_ne_nil _ _) then first else c.get ((p :: ring).formPerm q) := by
  induction ring generalizing c p with
  | nil => rw [passOn, get_set, List.getLast_singleton, List.formPerm_singleton, Equiv.Perm.one_apply]
  | cons r ring ih =>
      obtain ⟨hp, hn⟩ := List.nodup_cons.mp h
      rw [passOn, ih _ hn, List.getLast_cons_cons, List.formPerm_cons_cons, Equiv.Perm.mul_apply, get_set]
      split
      · rfl
      · rename_i hlast
        by_cases hq : q = p
        · -- The color of the next sticker has been written here, and `q` is not written again.
          rw [hq, List.formPerm_apply_of_notMem hp, if_pos rfl, Equiv.swap_apply_left]
        · have hqp : (r :: ring).formPerm q ≠ p := fun he =>
            hq ((r :: ring).formPerm.injective (he.trans (List.formPerm_apply_of_notMem hp).symm))
          have hqr : (r :: ring).formPerm q ≠ r := fun he =>
            hlast ((r :: ring).formPerm.injective (he.trans (List.formPerm_apply_getLast r ring).symm))
          rw [if_neg hqp, Equiv.swap_apply_of_ne_of_ne hqp hqr]

/-- A ring in which no sticker repeats keeps all its colors. -/
theorem get_shift (c : Cube) {ring : List Sticker} (h : ring.Nodup) (q : Sticker) :
    (c.shift ring).get q = c.get (ring.formPerm q) := by
  cases ring with
  | nil => rfl
  | cons p ring =>
      rw [shift, get_passOn _ _ h]
      split
      · rename_i hq
        rw [hq, List.formPerm_apply_getLast]
      · rfl

end Cube

/-! ## Layers -/

theorem Face.nodup_spinWrites (f : Face) (d : Direction) : ((f.spinWrites d).map Prod.fst).Nodup := by
  revert f d
  decide +kernel

theorem Slab.nodup_directedRing (s : Slab) (d : Direction) (i : Fin 3) : (s.directedRing d i).Nodup := by
  rcases s with f | s
  · revert f d i
    decide +kernel
  · revert s d i
    decide +kernel

theorem Axis.nodup_sideWrites (a : Axis) (d : Direction) : ((a.sideWrites d).map Prod.fst).Nodup := by
  revert a d
  decide +kernel

namespace Cube

theorem spin_eq_rewire (c : Cube) (f : Face) (d : Direction) : c.spin f d = c.rewire (f.spinWrites d) :=
  write_self (f.nodup_spinWrites d)

theorem get_shifts (c : Cube) (s : Slab) (d : Direction) (is : List (Fin 3)) (p : Sticker) :
    (is.foldl (fun c i => c.shift (s.directedRing d i)) c).get p =
      c.get ((is.map fun i => (s.directedRing d i).formPerm).prod p) := by
  induction is generalizing c with
  | nil => rfl
  | cons i is ih =>
      rw [List.foldl_cons, ih, get_shift _ (s.nodup_directedRing d i), List.map_cons, List.prod_cons,
        Equiv.Perm.mul_apply]

/-- Turning in place is sending every color along its wire. -/
theorem turn_eq_rewire (c : Cube) (q : Quarter) : c.turn q = c.rewire q.wires := by
  ext p
  rcases q with ⟨f | s, d⟩ | ⟨a, d⟩
  · change (List.foldl _ (c.spin f d) _).get p = _
    rw [get_shifts, spin_eq_rewire, get_rewire, get_rewire]
    refine congrArg c.get ?_
    revert f d p
    decide +kernel
  · change (List.foldl _ c _).get p = _
    rw [get_shifts, get_rewire]
    refine congrArg c.get ?_
    revert s d p
    decide +kernel
  · change (write _ _ _).get p = _
    rw [write_self (a.nodup_sideWrites d), spin_eq_rewire, spin_eq_rewire, get_rewire, get_rewire, get_rewire,
      get_rewire]
    refine congrArg c.get ?_
    revert a d p
    decide +kernel

example : (solved.turn (.slab (.face .R) .clockwise)).get ⟨.U, 0, 2⟩ = .green := by decide +kernel

end Cube

/-! ## Colors -/

theorem Sticker.mem_all (p : Sticker) : p ∈ all := List.mem_ofFn.mpr ⟨p.index, p.ofIndex_index⟩

theorem Sticker.nodup_all : all.Nodup :=
  List.nodup_ofFn.mpr fun i j h => by rw [← index_ofIndex i, h, index_ofIndex]

theorem Sticker.map_all_perm (f : Equiv.Perm Sticker) : (all.map f).Perm all :=
  (List.perm_ext_iff_of_nodup (nodup_all.map f.injective) nodup_all).mpr fun p =>
    iff_of_true (List.mem_map.mpr ⟨f.symm p, mem_all _, f.apply_symm_apply p⟩) (mem_all p)

namespace Cube

theorem reindex_reindex (c : Cube) (f g : Equiv.Perm Sticker) :
    (c.reindex f).reindex g = c.reindex ⇑(f * g) := by
  ext p
  simp only [get_reindex, Equiv.Perm.mul_apply]

theorem count_reindex (c : Cube) (f : Equiv.Perm Sticker) (color : Color) :
    (c.reindex f).count color = c.count color := by
  have hget : (c.reindex f).get = c.get ∘ f := funext (c.get_reindex f)
  rw [count, count, hget, ← List.map_map]
  exact ((Sticker.map_all_perm f).map c.get).count_eq color

theorem isLegal_reindex (c : Cube) (f : Equiv.Perm Sticker) : (c.reindex f).isLegal = c.isLegal := by
  simp only [isLegal, count_reindex]

theorem run_eq_reindex (c : Cube) (s : Sequence) : c.run s = c.reindex (Sequence.perm s) := by
  ext p
  rw [get_run, get_reindex]

theorem execute_eq_reindex (c : Cube) (m : Move) : c.execute m = c.reindex m.perm := by
  ext p
  rw [get_execute, get_reindex]

theorem isLegal_execute (c : Cube) (m : Move) : (c.execute m).isLegal = c.isLegal := by
  rw [execute_eq_reindex, isLegal_reindex]

theorem isLegal_run (c : Cube) (s : Sequence) : (c.run s).isLegal = c.isLegal := by
  rw [run_eq_reindex, isLegal_reindex]

/-! ## The check after each layer -/

theorem turnLayer?_eq (c : Cube) (l : Layer) (d : Direction) :
    c.turnLayer? l d = if c.isLegal then some (c.reindex (l.perm d)) else none := by
  have hturn : (l.quarters d).foldl turn c = c.reindex (l.perm d) := by
    have hwire : turn = fun c q => c.rewire q.wires := funext fun c => funext c.turn_eq_rewire
    ext p
    rw [hwire, get_turn, get_reindex]
    rfl
  simp only [turnLayer?, hturn, isLegal_reindex]

/-- A move in place does what the move does, and its checks fail only where the cube was not legal before. -/
theorem execute?_eq (c : Cube) (m : Move) :
    c.execute? m = if c.isLegal then some (c.execute m) else none := by
  obtain ⟨l, turn⟩ := m
  rw [execute_eq_reindex]
  cases turn with
  | clockwise => exact c.turnLayer?_eq l .clockwise
  | counterclockwise => exact c.turnLayer?_eq l .counterclockwise
  | half =>
      change (c.turnLayer? l .clockwise).bind (turnLayer? · l .clockwise) = _
      rw [Move.perm_half, turnLayer?_eq]
      split
      · rename_i h
        rw [Option.bind_some, turnLayer?_eq, isLegal_reindex, if_pos h, reindex_reindex]
      · rfl

theorem run?_eq {c : Cube} (h : c.isLegal) (s : Sequence) : c.run? s = some (c.run s) := by
  induction s generalizing c with
  | nil => rfl
  | cons m s ih =>
      have hm : (c.execute m).isLegal := by rw [isLegal_execute, h]
      change (c.execute? m).bind (run? · s) = _
      rw [execute?_eq, if_pos h, Option.bind_some, ih hm, run_cons]

theorem isLegal_solved : solved.isLegal := by
  decide +kernel

end Cube

/-! ## Sequences -/

/-- A sequence brings to every sticker the color of one other, whatever the colors are. Centers come from
centers, and the stickers of a piece from those of one piece. So all colors stay in number, and turning in
place never fails a check. -/
theorem Sequence.exists_rearrangement (s : Sequence) : ∃ π : Equiv.Perm Sticker,
    (∀ (c : Cube) p, (c.run s).get p = c.get (π p)) ∧
    (∀ f, ∃ g, π (.center f) = .center g) ∧
    (∀ k : PieceKind, ∀ piece ∈ k.pieces, ∃ source ∈ k.pieces, (piece.map π).Perm source) ∧
    (∀ (c : Cube) color, (c.run s).count color = c.count color) ∧
    (Cube.solved.run s).isLegal ∧ Cube.solved.run? s = some (Cube.solved.run s) := by
  refine ⟨perm s, fun c => c.get_run s, fun f => ?_, fun k piece hp => ?_, fun c color => ?_, ?_,
    Cube.run?_eq Cube.isLegal_solved s⟩
  · exact ⟨_, Rigid.apply_center s.perm_rigid f⟩
  · obtain ⟨source, hs, hr⟩ := Rigid.exists_isRotated s.perm_rigid hp
    exact ⟨source, hs, hr.perm⟩
  · rw [c.run_eq_reindex, c.count_reindex]
  · rw [Cube.run_eq_reindex, Cube.isLegal_reindex, Cube.isLegal_solved]

end Blindfold
