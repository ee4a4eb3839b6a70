import Blindfold.Proofs.Forms
import Blindfold.Proofs.Verdicts

/-!
# Setup moves

The setup of a conjugate brings the pieces of one cycle to the places of another. The conjugate is judged for the
first cycle as its inner comm is for the second: `Cycle.check_conjugate`.
-/

namespace Blindfold

/-! ## Letters that move -/

namespace Chart.Faithful

variable {t : Chart} (ht : t.Faithful) {s : Sequence} {a b : Comm} {σ τ : Equiv.Perm Letter}
include ht

theorem areRelated_iff {l m : Letter} : t.areRelated l m ↔ (t.sticker l).SamePiece (t.sticker m) := by
  rw [areRelated, List.contains_iff_mem, ht.mem_related_iff]

theorem areRelated_letterPerm (hσ : ∀ l, t.sticker (σ l) = Sequence.perm s (t.sticker l)) (l m : Letter) :
    t.areRelated (σ l) (σ m) = t.areRelated l m := by
  rw [Bool.eq_iff_iff, ht.areRelated_iff, ht.areRelated_iff, hσ, hσ, Rigid.samePiece_iff s.perm_rigid]

/-- The letters that the report shows, looked up by where it shows them. -/
theorem exists_report_inverse (hτ : ∀ l, t.sticker (τ l) = Sequence.perm s.inverse (t.sticker l)) :
    ∃ r, t.report (Cube.solved.run s) = .ok r ∧ ∀ l p, r.get p = l ↔ p = τ l := by
  obtain ⟨σ, hσ⟩ := ht.exists_letterPerm s.perm_rigid
  refine ⟨_, ht.report_eq_ofFn hσ, fun l p => ?_⟩
  rw [Report.get_ofFn, ← ht.sticker_injective.eq_iff, hσ, ← ht.sticker_injective.eq_iff, hτ,
    Sequence.perm_inverse, Equiv.Perm.eq_inv_iff_eq]

/-- In a conjugate the letters move as in its inner comm, renamed by the setup. -/
theorem report_conjugate (hσ : ∀ l, t.sticker (σ l) = Sequence.perm b.expand (t.sticker l))
    (hτ : ∀ l, t.sticker (τ l) = Sequence.perm a.expand.inverse (t.sticker l)) :
    t.report (Cube.solved.run (Comm.conjugate a b).expand) = .ok (.ofFn ⇑(τ⁻¹ * σ * τ)) := by
  refine ht.report_eq_ofFn fun l => ?_
  have hinv (l : Letter) : t.sticker (τ⁻¹ l) = Sequence.perm a.expand (t.sticker l) := by
    rw [← Equiv.Perm.inv_eq_iff_eq, ← Sequence.perm_inverse, ← hτ]
    exact congrArg t.sticker (τ.apply_symm_apply l)
  calc t.sticker ((τ⁻¹ * σ * τ) l)
      = Sequence.perm a.expand (Sequence.perm b.expand (Sequence.perm a.expand.inverse (t.sticker l))) := by
        rw [Equiv.Perm.mul_apply, Equiv.Perm.mul_apply, hinv, hσ, hτ]
    _ = Sequence.perm (Comm.conjugate a b).expand (t.sticker l) := by
        rw [Comm.expand, Sequence.perm_append, Sequence.perm_append, Equiv.Perm.mul_apply, Equiv.Perm.mul_apply]

end Chart.Faithful

namespace Report

/-- The second report says of the letters that `τ` gives what the first says of the letters. -/
def Renamed (τ : Equiv.Perm Letter) (r r' : Report) : Prop := ∀ l, r'.get (τ l) = τ (r.get l)

variable {σ τ : Equiv.Perm Letter} {r r' : Report}

namespace Renamed

variable (h : Renamed τ r r')
include h

theorem get_iff {l m : Letter} : r'.get (τ l) = τ m ↔ r.get l = m := by
  rw [h, EmbeddingLike.apply_eq_iff_eq]

theorem isFixed_eq (l : Letter) : r'.isFixed (τ l) = r.isFixed l := by
  rw [isFixed, isFixed, decide_eq_decide, h.get_iff]

theorem isIdentity_eq : r'.isIdentity = r.isIdentity := by
  rw [Bool.eq_iff_iff, isIdentity, isIdentity, List.all_eq_true, List.all_eq_true]
  simp only [Letter.all, List.mem_finRange, forall_const, ← h.isFixed_eq]
  exact (τ.forall_congr_right (q := fun l => r'.isFixed l = true)).symm

end Renamed

/-- The report after `τ⁻¹`, `σ` and `τ` is that of `σ` with every letter renamed. -/
theorem renamed_conj : Renamed τ (ofFn ⇑(τ⁻¹ * σ * τ)) (ofFn σ) := by
  intro l
  rw [get_ofFn, get_ofFn, ← Equiv.Perm.inv_eq_iff_eq]
  rfl

theorem isIdentity_conj : (ofFn ⇑(τ⁻¹ * σ * τ)).isIdentity = (ofFn σ).isIdentity :=
  renamed_conj.isIdentity_eq.symm

end Report

/-! ## Verdicts that move -/

namespace Cycle

/-- The cycle of the letters that a permutation gives for the letters of this one. -/
def relabel (τ : Equiv.Perm Letter) (cycle : Cycle) : Cycle :=
  { cycle with buffer := τ cycle.buffer, target1 := τ cycle.target1, target2 := τ cycle.target2 }

variable {t t' : Chart} {σ τ : Equiv.Perm Letter} {own own' other other' : Report} (cycle : Cycle)

theorem isBystander_relabel (hτ : ∀ l m, t'.areRelated (τ l) (τ m) = t.areRelated l m) (l : Letter) :
    (cycle.relabel τ).isBystander t' (τ l) = cycle.isBystander t l := by
  simp [isBystander, relabel, hτ]

theorem isShownBy_relabel (h : own.Renamed τ own') : (cycle.relabel τ).isShownBy own' = cycle.isShownBy own := by
  rw [Bool.eq_iff_iff]
  simp only [isShownBy, relabel, Bool.and_eq_true, decide_eq_true_eq, h.get_iff]

/-- Charts and reports that differ in the names of the letters give one verdict. -/
theorem judge_of_renamed (hτ : ∀ l m, t'.areRelated (τ l) (τ m) = t.areRelated l m) (h : own.Renamed τ own')
    (ho : other.isIdentity = other'.isIdentity) :
    (cycle.relabel τ).judge t' own' other = cycle.judge t own other' := by
  have hb : (Letter.all.any fun l => (cycle.relabel τ).isBystander t' l && ! own'.isFixed l) =
      Letter.all.any fun l => cycle.isBystander t l && ! own.isFixed l := by
    rw [Bool.eq_iff_iff, List.any_eq_true, List.any_eq_true]
    simp only [Letter.all, List.mem_finRange, true_and, ← h.isFixed_eq, ← cycle.isBystander_relabel hτ]
    exact τ.exists_congr_right.symm
  rw [judge, judge, ho, hb, cycle.isShownBy_relabel h]

theorem judge_relabel (hτ : ∀ l m, t.areRelated (τ l) (τ m) = t.areRelated l m)
    (ho : other.isIdentity = other'.isIdentity) :
    (cycle.relabel τ).judge t (.ofFn σ) other = cycle.judge t (.ofFn ⇑(τ⁻¹ * σ * τ)) other' :=
  cycle.judge_of_renamed hτ Report.renamed_conj ho

/-- A conjugate gets the verdict that its inner comm gets for the letters to which its setup moves those of the
cycle. -/
theorem check_conjugate {t : Lettering} (ht : Lettering.speffz = .ok t) {A B : String} {a b : Comm}
    (hA : Comm.parse A = .ok a) (hB : Comm.parse B = .ok b) (cycle : Cycle) :
    ∃ comm r τ v, Comm.parse ("[" ++ A ++ "]:[" ++ B ++ "]") = .ok comm ∧
      (t.chart cycle.kind).report (Cube.solved.run a.expand) = .ok r ∧ (∀ l p, r.get p = l ↔ p = τ l) ∧
      cycle.check t comm.expand = .ok v ∧ (cycle.relabel τ).check t b.expand = .ok v ∧
      v ∈ [.valid, .incorrectCycle, .disruptsOtherPieces] := by
  have hf := Lettering.speffz_faithful ht
  choose σ hσ using fun k => (hf k).exists_letterPerm b.expand.perm_rigid
  choose τ hτ using fun k => (hf k).exists_letterPerm a.expand.inverse.perm_rigid
  have hcomm : Comm.parse ("[" ++ A ++ "]:[" ++ B ++ "]") = .ok (.conjugate a b) := by
    have htext : ("[" ++ A ++ "]:[" ++ B ++ "]").toList =
        Bracket.group A.toList ++ ':' :: Bracket.group B.toList := by
      simp [Bracket.group]
    rw [Comm.parse, htext]
    exact Comm.read_join_groups .conjugate hA hB
  obtain ⟨r, hr, hget⟩ := (hf cycle.kind).exists_report_inverse (hτ _)
  have hinner := (cycle.relabel (τ cycle.kind)).check_eq ((hf _).report_eq_ofFn (hσ _))
    ((hf _).report_eq_ofFn (hσ _))
  have houter := cycle.check_eq ((hf _).report_conjugate (hσ _) (hτ _))
    ((hf _).report_conjugate (hσ _) (hτ _))
  rw [← cycle.judge_relabel ((hf _).areRelated_letterPerm (hτ _)) Report.isIdentity_conj.symm] at houter
  exact ⟨_, r, τ cycle.kind, _, hcomm, hr, hget, houter, hinner, judge_mem _ _ _ _⟩

theorem check_conjugate_setup : ∃ t a b, Lettering.speffz = .ok t ∧ Comm.parse "D" = .ok a ∧
    Comm.parse "[R U R', D2]" = .ok b ∧
    ∃ comm r, ∃ τ : Equiv.Perm Letter, ∃ v, Comm.parse ("[" ++ "D" ++ "]:[" ++ "[R U R', D2]" ++ "]") = .ok comm ∧
      (t.chart .corner).report (Cube.solved.run a.expand) = .ok r ∧ (∀ l p, r.get p = l ↔ p = τ l) ∧
      check ⟨.corner, 2, 11, 19⟩ t comm.expand = .ok v ∧
      check ⟨.corner, τ 2, τ 11, τ 19⟩ t b.expand = .ok v ∧
      v ∈ [.valid, .incorrectCycle, .disruptsOtherPieces] := by
  obtain ⟨t, ht, -⟩ := Lettering.exists_speffz
  obtain ⟨a, ha, -⟩ := Outcome.exists_ok_of_any (x := Comm.parse "D") (P := fun _ => true) (by decide +kernel)
  obtain ⟨b, hb, -⟩ := Outcome.exists_ok_of_any (x := Comm.parse "[R U R', D2]") (P := fun _ => true)
    (by decide +kernel)
  exact ⟨t, a, b, ht, ha, hb, check_conjugate ht ha hb ⟨.corner, 2, 11, 19⟩⟩

end Cycle
end Blindfold
