import Blindfold.Proofs.Transport

/-!
# Symmetries of the verdict

A cycle may be read from any of its letters, and undone it runs the other way. The verdict follows: it is the same
wherever the cycle begins, the inverse moves get it for the reversed cycle, and moves that perform a cycle do not
perform its reverse. See `Cycle.check_symmetric`.
-/

namespace Blindfold

variable {σ : Equiv.Perm Letter}

/-! ## The report of the inverse moves -/

theorem Chart.Faithful.report_inverse {t : Chart} (ht : t.Faithful) {s : Sequence}
    (hσ : ∀ l, t.sticker (σ l) = Sequence.perm s (t.sticker l)) :
    t.report (Cube.solved.run s.inverse) = .ok (.ofFn ⇑σ⁻¹) := by
  refine ht.report_eq_ofFn fun l => ?_
  rw [Sequence.perm_inverse, Equiv.Perm.eq_inv_iff_eq, ← hσ]
  exact congrArg t.sticker (σ.apply_symm_apply l)

namespace Report

theorem get_inv_iff {l m : Letter} : (ofFn ⇑σ⁻¹).get l = m ↔ (ofFn σ).get m = l := by
  rw [get_ofFn, get_ofFn, Equiv.Perm.inv_eq_iff_eq]
  exact eq_comm

theorem isFixed_inv (l : Letter) : (ofFn ⇑σ⁻¹).isFixed l = (ofFn σ).isFixed l := by
  rw [isFixed, isFixed, decide_eq_decide, get_inv_iff]

theorem isIdentity_inv : (ofFn ⇑σ⁻¹).isIdentity = (ofFn σ).isIdentity := by
  rw [isIdentity, isIdentity, funext isFixed_inv]

end Report

namespace Cycle

/-- The same cycle, read from its first target. -/
def rotate (cycle : Cycle) : Cycle :=
  { cycle with buffer := cycle.target1, target1 := cycle.target2, target2 := cycle.buffer }

/-- The cycle run through the other way. -/
def reverse (cycle : Cycle) : Cycle := { cycle with target1 := cycle.target2, target2 := cycle.target1 }

variable {t : Chart} {own other : Report} (cycle : Cycle)

theorem isBystander_rotate (l : Letter) : cycle.rotate.isBystander t l = cycle.isBystander t l := by
  simp only [isBystander, rotate, List.any_cons, List.any_nil, Bool.or_false]
  rw [← Bool.or_assoc, Bool.or_comm]

theorem isBystander_reverse (l : Letter) : cycle.reverse.isBystander t l = cycle.isBystander t l := by
  simp only [isBystander, reverse, List.any_cons, List.any_nil, Bool.or_false]
  rw [Bool.or_comm (t.areRelated cycle.target2 l)]

theorem isShownBy_rotate : cycle.rotate.isShownBy own = cycle.isShownBy own := by
  simp only [isShownBy, rotate]
  rw [Bool.and_comm, Bool.and_assoc]
  rfl

theorem isShownBy_reverse : cycle.reverse.isShownBy (.ofFn ⇑σ⁻¹) = cycle.isShownBy (.ofFn σ) := by
  rw [Bool.eq_iff_iff]
  simp only [isShownBy, reverse, Bool.and_eq_true, decide_eq_true_eq, Report.get_inv_iff]
  constructor
  · rintro ⟨⟨hb, h₂⟩, h₁⟩
    exact ⟨⟨h₁, h₂⟩, hb⟩
  · rintro ⟨⟨h₁, h₂⟩, hb⟩
    exact ⟨⟨hb, h₂⟩, h₁⟩

theorem judge_rotate : cycle.rotate.judge t own other = cycle.judge t own other := by
  simp only [judge, isBystander_rotate, isShownBy_rotate]

theorem judge_reverse {ρ : Equiv.Perm Letter} :
    cycle.reverse.judge t (.ofFn ⇑σ⁻¹) (.ofFn ⇑ρ⁻¹) = cycle.judge t (.ofFn σ) (.ofFn ρ) := by
  simp only [judge, isBystander_reverse, isShownBy_reverse, Report.isFixed_inv, Report.isIdentity_inv]

theorem judge_reverse_of_valid {cycle : Cycle} (h : cycle.judge t own other = .valid)
    (hne : cycle.target1 ≠ cycle.target2) : cycle.reverse.judge t own other = .incorrectCycle := by
  obtain ⟨ho, hb, hs⟩ := judge_eq_valid_iff.mp h
  rw [judge_of_others ho fun l hl => hb l (by rwa [isBystander_reverse] at hl)]
  refine if_neg fun hr => hne ?_
  simp only [isShownBy, Bool.and_eq_true, decide_eq_true_eq] at hs hr
  exact hr.2.symm.trans hs.2

/-- The inverse moves get the verdict for the reversed cycle, every letter may be the buffer, and of the two
directions only one is valid. -/
theorem check_symmetric {t : Lettering} (ht : Lettering.speffz = .ok t) (comm : Comm) (cycle : Cycle) :
    ∃ v, cycle.check t comm.expand = .ok v ∧
      (∀ inv : Comm, inv.expand = comm.expand.inverse → cycle.reverse.check t inv.expand = .ok v) ∧
      cycle.rotate.check t comm.expand = .ok v ∧
      (v = .valid → cycle.target1 ≠ cycle.target2 →
        cycle.reverse.check t comm.expand = .ok .incorrectCycle) := by
  have hf := Lettering.speffz_faithful ht
  choose σ hσ using fun k => (hf k).exists_letterPerm comm.expand.perm_rigid
  have hreport (k : PieceKind) := (hf k).report_eq_ofFn (hσ k)
  have hcheck := cycle.check_eq (hreport _) (hreport _)
  refine ⟨_, hcheck, fun inv hinv => ?_, ?_, fun hv hne => ?_⟩
  · rw [hinv, cycle.reverse.check_eq ((hf _).report_inverse (hσ _)) ((hf _).report_inverse (hσ _))]
    exact congrArg _ cycle.judge_reverse
  · rw [cycle.rotate.check_eq (hreport _) (hreport _)]
    exact congrArg _ cycle.judge_rotate
  · rw [cycle.reverse.check_eq (hreport _) (hreport _)]
    exact congrArg _ (judge_reverse_of_valid hv hne)

theorem check_symmetric_commutator : ∃ t comm inv, Lettering.speffz = .ok t ∧
    Comm.parse "[R U R', D]" = .ok comm ∧ Comm.parse "[D, R U R']" = .ok inv ∧
    inv.expand = comm.expand.inverse ∧ check ⟨.corner, 2, 15, 11⟩ t comm.expand = .ok .valid ∧
    check ⟨.corner, 2, 11, 15⟩ t inv.expand = .ok .valid ∧
    check ⟨.corner, 15, 11, 2⟩ t comm.expand = .ok .valid ∧
    check ⟨.corner, 2, 11, 15⟩ t comm.expand = .ok .incorrectCycle := by
  obtain ⟨t, comm, -, ht, hc, -, h, -⟩ := exists_valid
  obtain ⟨inv, hi, he⟩ := Outcome.exists_ok_of_any (x := Comm.parse "[D, R U R']")
    (P := fun inv => (Comm.parse "[R U R', D]").toOption.any fun comm => inv.expand = comm.expand.inverse)
    (by decide +kernel)
  obtain ⟨comm', hc', he⟩ := Outcome.exists_ok_of_any he
  obtain rfl := Except.ok.inj (hc.symm.trans hc')
  obtain ⟨v, hv, hinv, hrot, hrev⟩ := check_symmetric ht comm ⟨.corner, 2, 15, 11⟩
  obtain rfl := Except.ok.inj (h.symm.trans hv)
  have he := of_decide_eq_true he
  exact ⟨t, comm, inv, ht, hc, hi, he, h, hinv inv he, hrot, hrev rfl (by decide)⟩

end Cycle
end Blindfold
