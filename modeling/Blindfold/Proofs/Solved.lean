import Blindfold.Proofs.Holding
import Blindfold.Proofs.Tracking

/-!
# Solved cubes

A cube is found solved when it is held upright and compared with the solved one. It is then the solved cube, held
in some way; and of the cubes that moves can reach it is the only one whose reports, once it is upright, name every
letter at home: `Cube.isSolved_iff`.
-/

namespace Blindfold
namespace Cube

variable {c : Cube} {color : Color} {held : Cube × Sequence}

/-! ## Solved in some way of holding -/

theorem upright_solved : solved.upright = solved := by
  rw [upright, orientation_eq_nil (center_solved .U) (center_solved .F), run_nil]

theorem isSolved_iff_upright : c.isSolved ↔ c.upright = solved := decide_eq_true_iff

theorem reachable_of_run_eq_solved {r : Sequence} (h : c.run r = solved) : c.Reachable :=
  ⟨r.inverse, by rw [← h, Sequence.run_inverse]⟩

theorem isSolved_iff_exists_rotation : c.isSolved ↔ ∃ r : Sequence, r.IsRotation ∧ c.run r = solved := by
  rw [isSolved_iff_upright]
  constructor
  · intro h
    exact ⟨c.orientation, c.isRotation_orientation, h⟩
  · rintro ⟨r, hr, h⟩
    rw [← (reachable_of_run_eq_solved h).upright_run hr, h, upright_solved]

/-! ## Found in place -/

theorem executeNoting?_eq_none (h : c.isLegal = false) (s : Sequence) (m : Move) :
    executeNoting? (c, s) m = none := by
  simp [executeNoting?, execute?_eq, h]

theorem turnToFront?_of_not_legal (h : c.isLegal = false) {s : Sequence} {limit : Nat}
    (ht : turnToFront? color limit (c, s) = some held) : held = (c, s) := by
  cases limit with
  | zero => exact (Option.some.inj ht).symm
  | succ limit =>
      rw [turnToFront?] at ht
      split at ht
      · exact (Option.some.inj ht).symm
      · simp [executeNoting?_eq_none h] at ht

theorem turnWhiteUp?_of_not_legal (h : c.isLegal = false) (ht : c.turnWhiteUp? = some held) : held = (c, []) := by
  rw [turnWhiteUp?] at ht
  split at ht
  · exact (Option.some.inj ht).symm
  · split at ht
    · simp [executeNoting?_eq_none h] at ht
    · obtain ⟨front, hf, ht⟩ := Option.bind_eq_some_iff.mp ht
      obtain rfl := turnToFront?_of_not_legal h hf
      simp [executeNoting?_eq_none h] at ht

/-- A cube that is not legal passes no check, so it can be held upright in place only if it already is. -/
theorem holdUpright?_of_not_legal (h : c.isLegal = false) (hh : c.holdUpright? = some held) : held = (c, []) := by
  obtain ⟨up, hu, ht⟩ := Option.bind_eq_some_iff.mp hh
  obtain rfl := turnWhiteUp?_of_not_legal h hu
  exact turnToFront?_of_not_legal h ht

theorem isSolved_iff_holdUpright? : c.isSolved ↔ ∃ r, c.holdUpright? = some (solved, r) := by
  cases h : c.isLegal with
  | true =>
      rw [isSolved_iff_upright, holdUpright?_eq h]
      simp
  | false =>
      have hne : c ≠ solved := by
        rintro rfl
        simp [isLegal_solved] at h
      refine iff_of_false (fun hs => ?_) ?_
      · obtain ⟨r, -, hr⟩ := isSolved_iff_exists_rotation.mp hs
        simp [(reachable_of_run_eq_solved hr).isLegal] at h
      · rintro ⟨r, hr⟩
        exact hne (Prod.mk.inj (holdUpright?_of_not_legal h hr)).1.symm

end Cube

/-! ## Seen in the reports -/

/-- With two centers that are not opposite at home, all centers are. -/
theorem Sequence.perm_eq_self_of_centers {s : Sequence} (hU : perm s (.center .U) = .center .U)
    (hF : perm s (.center .F) = .center .F) {p : Sticker} (hp : p.kind? = none) : perm s p = p := by
  have hk (f : Face) : (Sticker.center f).kind? = none := (Sticker.kind?_eq_none_iff _).mpr rfl
  have hr : s.carried.IsRotation := fun m hm => by
    obtain ⟨a, d, rfl⟩ := s.exists_eq_quarter hm
    rfl
  have hone : perm s.carried = perm [] := perm_eq_of_centers hr (List.forall_mem_nil _)
    ((s.perm_carried (hk .U)).trans hU) ((s.perm_carried (hk .F)).trans hF)
  rw [← s.perm_carried hp, hone]
  rfl

namespace Cube

theorem center_perm_of_center {s : Sequence} {f : Face} (h : (solved.run s).center f = f.solvedColor) :
    Sequence.perm s (.center f) = .center f := by
  rw [center_run, center_solved] at h
  have hf : Rigid.centers s.rigid f = f := Face.solvedColor_injective h
  exact (Rigid.apply_centers s.rigid f).trans (congrArg Sticker.center hf)

/-- What edges, corners and centers show determines a cube that moves can reach. -/
theorem run_eq_solved_of_reports {t : Lettering} (ht : Lettering.speffz = .ok t) {s : Sequence}
    (hU : (solved.run s).center .U = .white) (hF : (solved.run s).center .F = .green)
    (hr : ∀ k, ∃ r, (t.chart k).report (solved.run s) = .ok r ∧ r.isIdentity) : solved.run s = solved := by
  have hone (p : Sticker) : Sequence.perm s p = p := by
    cases hk : p.kind? with
    | none => exact Sequence.perm_eq_self_of_centers (center_perm_of_center hU) (center_perm_of_center hF) hk
    | some k =>
        obtain ⟨l, rfl⟩ := Lettering.speffz_exists_sticker_eq ht hk
        obtain ⟨r, h, hid⟩ := hr k
        have hl : r.get l = l := of_decide_eq_true (List.all_eq_true.mp hid l (List.mem_finRange l))
        rw [← (Lettering.speffz_faithful ht k).sticker_get h, hl]
  ext p
  rw [get_run, hone]

/-- A cube is found solved, also when it is turned in place, if some rotations bring it to the solved cube. After
moves this is so exactly when, held upright, it shows every edge and corner letter at home. -/
theorem isSolved_iff : ∃ t, Lettering.speffz = .ok t ∧
    (∀ c : Cube, (c.isSolved ↔ ∃ r : Sequence, r.IsRotation ∧ c.run r = solved) ∧
      (c.isSolved ↔ ∃ r, c.holdUpright? = some (solved, r))) ∧
    (∀ s s' : Sequence, (solved.run s).isSolvedBy s' ↔
      ∃ r : Sequence, r.IsRotation ∧ solved.run (s ++ s' ++ r) = solved) ∧
    (∀ s : Sequence, (solved.run s).isSolved ↔
      ∀ k, ∃ r, (t.chart k).report (solved.run s).upright = .ok r ∧ r.isIdentity) := by
  obtain ⟨t, ht, -⟩ := Lettering.exists_speffz
  refine ⟨t, ht, fun c => ⟨isSolved_iff_exists_rotation, isSolved_iff_holdUpright?⟩, fun s s' => ?_, fun s => ?_⟩
  · rw [isSolvedBy, isSolved_iff_exists_rotation]
    simp only [run_append]
  · have hs : (solved.run s).Reachable := ⟨s, rfl⟩
    obtain ⟨hU, hF, -⟩ := hs.orientation
    rw [isSolved_iff_upright]
    constructor
    · intro h k
      rw [h]
      exact ⟨_, (Lettering.build_checked ht k).2.report_solved, Report.isIdentity_ofFn_id⟩
    · intro h
      rw [upright, ← run_append] at hU hF h ⊢
      exact run_eq_solved_of_reports ht hU hF h

end Cube
end Blindfold
