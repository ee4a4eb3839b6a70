import Blindfold.Proofs.Transport
import Blindfold.Proofs.Twist

/-!
# Cycles with a shared piece

The check does not ask that the buffer and the targets are on three pieces. Moves that pass it although two of the
letters share a piece would bring that piece back to its place, and then it is not turned there either: an edge
because it goes around in three steps, a corner because of the twist. So the letters are one and nothing moves:
`Cycle.apart_or_identity_of_valid`.
-/

namespace Blindfold

theorem Sticker.next_next_of_edge {p : Sticker} (h : p.kind? = some .edge) : p.next.next = p := by
  revert p
  decide +kernel

/-- An edge that stays in its place and comes home in three steps is not flipped. -/
theorem Rigid.eq_self_of_pow_three {f : Equiv.Perm Sticker} (hf : f ∈ Rigid) {p : Sticker}
    (hp : p.kind? = some .edge) (hs : p.SamePiece (f p)) (h : (f ^ 3) p = p) : f p = p := by
  rcases hs with hs | hs | hs
  · exact hs
  · have h₂ : f (f p) = p := by rw [hs, mem_rigid_iff.mp hf, hs, Sticker.next_next_of_edge hp]
    change f (f (f p)) = p at h
    rwa [h₂] at h
  · rwa [Sticker.next_next_of_edge hp] at hs

namespace Chart

variable {t : Chart} {a b a' b' : Letter}

/-- Letters whose stickers are carried from one piece are carried to one piece. -/
theorem Faithful.areRelated_carried (ht : t.Faithful) {s : Sequence}
    (ha : Sequence.perm s (t.sticker a) = t.sticker a') (hb : Sequence.perm s (t.sticker b) = t.sticker b') :
    t.areRelated a' b' ↔ t.areRelated a b := by
  rw [ht.areRelated_iff, ht.areRelated_iff, ← ha, ← hb, Rigid.samePiece_iff s.perm_rigid]

end Chart

namespace Cycle

variable {cycle : Cycle} {t : Lettering} {s : Sequence}

/-- All letters of the cycle are on the buffer's piece. -/
def OnBuffer (cycle : Cycle) (t : Chart) : Prop :=
  t.areRelated cycle.buffer cycle.target1 ∧ t.areRelated cycle.buffer cycle.target2

theorem OnBuffer.isBystander {t : Chart} (h : cycle.OnBuffer t) (ht : t.Checked) (l : Letter) :
    cycle.isBystander t l = ! t.areRelated cycle.buffer l := by
  simp [Cycle.isBystander, Chart.areRelated, ← ht.related_eq h.1, ← ht.related_eq h.2]

namespace Performed

variable (ht : Lettering.speffz = .ok t) (h : cycle.Performed t s)
include ht h

/-- If two of the letters share a piece, all three do. -/
theorem onBuffer (hr : (t.chart cycle.kind).areRelated cycle.buffer cycle.target1 ∨
      (t.chart cycle.kind).areRelated cycle.buffer cycle.target2 ∨
      (t.chart cycle.kind).areRelated cycle.target1 cycle.target2) :
    cycle.OnBuffer (t.chart cycle.kind) := by
  have hf := Lettering.speffz_faithful ht cycle.kind
  -- The moves carry the targets to the buffer and the first target, and these to the second target and the buffer.
  have h₁ := hf.areRelated_carried h.target1 h.target2
  have h₂ := hf.areRelated_carried h.buffer h.target1
  rcases hr with hr | hr | hr
  · exact ⟨hr, hf.areRelated_symm (h₂.mpr hr)⟩
  · exact ⟨h₂.mp (hf.areRelated_symm hr), hr⟩
  · exact ⟨h₁.mpr hr, hf.areRelated_symm (h₂.mpr (h₁.mpr hr))⟩

theorem perm_buffer (ho : cycle.OnBuffer (t.chart cycle.kind)) :
    Sequence.perm s ((t.chart cycle.kind).sticker cycle.buffer) =
      (t.chart cycle.kind).sticker cycle.buffer := by
  have hf := Lettering.speffz_faithful ht cycle.kind
  have hs := hf.areRelated_iff.mp ho.2
  rw [← h.buffer] at hs
  have hk := Lettering.speffz_kind?_sticker ht cycle.kind cycle.buffer
  cases hc : cycle.kind with
  | edge =>
      rw [hc] at hk hs
      exact Rigid.eq_self_of_pow_three s.perm_rigid hk hs
        (h.perm_pow_three ht (hk ▸ Option.some_ne_none _))
  | corner =>
      have hother (q : Sticker) (hq : q.kind? = some .corner)
          (hn : ¬ ((t.chart cycle.kind).sticker cycle.buffer).SamePiece q) : Sequence.perm s q = q := by
        obtain ⟨l, rfl⟩ := Lettering.speffz_exists_sticker_eq ht (hq.trans (congrArg some hc.symm))
        refine h.bystander ?_
        rw [ho.isBystander hf.toChecked, Bool.not_eq_true', Bool.eq_false_iff]
        exact mt hf.areRelated_iff.mp hn
      rw [hc] at hk hs hother
      exact Rigid.eq_self_of_twist s.twist_rigid hk hs hother

/-- When two letters share a piece, the letters are one and all edges and corners stay. -/
theorem perm_eq_self (ho : cycle.OnBuffer (t.chart cycle.kind)) :
    (cycle.buffer = cycle.target1 ∧ cycle.target1 = cycle.target2) ∧
      ∀ p, p.kind? ≠ none → Sequence.perm s p = p := by
  have hf := Lettering.speffz_faithful ht cycle.kind
  have hb := h.perm_buffer ht ho
  have h₂ : cycle.target2 = cycle.buffer := hf.sticker_injective (h.buffer.symm.trans hb)
  have h₁ : cycle.target1 = cycle.buffer :=
    hf.sticker_injective (h.target2.symm.trans ((congrArg _ (congrArg _ h₂)).trans hb))
  refine ⟨⟨h₁.symm, h₁.trans h₂.symm⟩, fun p hp => ?_⟩
  refine cycle.eq_of_letters (g := 1) ht s.perm_rigid Rigid.one_mem (fun q hq => h.other hq)
    (fun l hl => h.bystander hl) (fun l hl => ?_) hp
  simp only [h₁, h₂, List.mem_cons, List.not_mem_nil, or_false, or_self] at hl
  exact hl ▸ hb

end Performed

/-- A valid comm is filed under three pieces, or under one letter and moves no edge and no corner. -/
theorem apart_or_identity_of_valid (ht : Lettering.speffz = .ok t) {comm : Comm}
    (h : cycle.check t comm.expand = .ok .valid) :
    ((t.chart cycle.kind).areRelated cycle.buffer cycle.target1 = false ∧
      (t.chart cycle.kind).areRelated cycle.buffer cycle.target2 = false ∧
      (t.chart cycle.kind).areRelated cycle.target1 cycle.target2 = false) ∨
    ((cycle.buffer = cycle.target1 ∧ cycle.target1 = cycle.target2) ∧
      ∀ k, ∃ r, (t.chart k).report (Cube.solved.run comm.expand) = .ok r ∧ r.isIdentity) := by
  have hd := performed_of_check ht h
  by_cases hr : (t.chart cycle.kind).areRelated cycle.buffer cycle.target1 ∨
      (t.chart cycle.kind).areRelated cycle.buffer cycle.target2 ∨
      (t.chart cycle.kind).areRelated cycle.target1 cycle.target2
  · obtain ⟨hl, hp⟩ := hd.perm_eq_self ht (hd.onBuffer ht hr)
    refine .inr ⟨hl, fun k => ?_⟩
    have hf := Lettering.speffz_faithful ht k
    have hσ (l : Letter) : (t.chart k).sticker ((1 : Equiv.Perm Letter) l) =
        Sequence.perm comm.expand ((t.chart k).sticker l) :=
      (hp _ (hf.kind?_sticker l ▸ Option.some_ne_none _)).symm
    exact ⟨_, hf.report_eq_ofFn hσ, by simp [Report.isIdentity, Report.isFixed]⟩
  · simp only [not_or, Bool.not_eq_true] at hr
    exact .inl hr

/-- The commutator of two slices moves centers only, and is valid where all letters are one. -/
theorem apart_or_identity_of_valid_slices : ∃ t comm, Lettering.speffz = .ok t ∧
    Comm.parse "[M, E]" = .ok comm ∧ check ⟨.corner, 2, 2, 2⟩ t comm.expand = .ok .valid ∧
    ∀ k, ∃ r, (t.chart k).report (Cube.solved.run comm.expand) = .ok r ∧ r.isIdentity := by
  obtain ⟨comm, hc, h⟩ := Outcome.exists_ok_of_any (x := Comm.parse "[M, E]")
    (P := fun comm => Lettering.speffz.toOption.any fun t => isValid ⟨.corner, 2, 2, 2⟩ t comm.expand)
    (by decide +kernel)
  obtain ⟨t, ht, h⟩ := Outcome.exists_ok_of_any h
  have h := check_of_isValid h
  have hr : (t.chart .corner).areRelated 2 2 = true :=
    List.contains_iff_mem.mpr ((Lettering.speffz_faithful ht .corner).mem_related 2)
  rcases apart_or_identity_of_valid ht h with ⟨hn, -⟩ | ⟨-, hid⟩
  · exact absurd hr (Bool.eq_false_iff.mp hn)
  · exact ⟨t, comm, ht, hc, h, hid⟩

end Cycle
end Blindfold
