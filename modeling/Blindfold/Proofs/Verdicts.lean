import Blindfold.Cycle
import Blindfold.Proofs.Parity
import Blindfold.Proofs.Tracking

/-!
# What a valid verdict says

A valid verdict rests on two reports and, of the pieces in the cycle, on three letters only. Yet it fixes
where every sticker of an edge and of a corner is (`Cycle.Performed.perm_eq`); of the centers it fixes that
they are moved by evenly many quarter rotations of the whole cube.
-/

namespace Blindfold
namespace Cycle

variable {cycle : Cycle} {t : Lettering} {s s' : Sequence}

/-! ## The verdict from the reports -/

/-- The pieces outside the cycle are looked at first, and then the cycle. -/
theorem judge_eq (cycle : Cycle) (t : Chart) (own other : Report) : cycle.judge t own other =
    if other.isIdentity ∧ ∀ l, cycle.isBystander t l → own.isFixed l then
      if cycle.isShownBy own then .valid else .incorrectCycle
    else .disruptsOtherPieces := by
  have hb : (! other.isIdentity || Letter.all.any fun l => cycle.isBystander t l && ! own.isFixed l) = true ↔
      ¬ (other.isIdentity ∧ ∀ l, cycle.isBystander t l → own.isFixed l) := by
    simp [Letter.all, or_iff_not_imp_left]
  rw [judge, if_congr hb rfl rfl, ite_not]

theorem judge_of_others {t : Chart} {own other : Report} (ho : other.isIdentity)
    (hb : ∀ l, cycle.isBystander t l → own.isFixed l) :
    cycle.judge t own other = if cycle.isShownBy own then .valid else .incorrectCycle := by
  rw [judge_eq, if_pos ⟨ho, hb⟩]

theorem judge_eq_valid_iff {t : Chart} {own other : Report} : cycle.judge t own other = .valid ↔
    other.isIdentity ∧ (∀ l, cycle.isBystander t l → own.isFixed l) ∧ cycle.isShownBy own := by
  rw [judge_eq, ← and_assoc]
  split
  · rename_i h
    rw [and_iff_right h]
    split <;> simp [*]
  · rename_i h
    exact iff_of_false nofun fun hv => h hv.1

theorem judge_mem (cycle : Cycle) (t : Chart) (own other : Report) :
    cycle.judge t own other ∈ [.valid, .incorrectCycle, .disruptsOtherPieces] := by
  rw [judge_eq]
  split
  · split <;> simp
  · simp

theorem check_eq (cycle : Cycle) {own other : Report}
    (ho : (t.chart cycle.kind.other).report (Cube.solved.run s) = .ok other)
    (hw : (t.chart cycle.kind).report (Cube.solved.run s) = .ok own) :
    cycle.check t s = .ok (cycle.judge (t.chart cycle.kind) own other) :=
  Outcome.bind_eq_ok_iff.mpr ⟨other, ho, Outcome.bind_eq_ok_iff.mpr ⟨own, hw, rfl⟩⟩

theorem check_eq_valid_iff : cycle.check t s = .ok .valid ↔
    ∃ other own, (t.chart cycle.kind.other).report (Cube.solved.run s) = .ok other ∧
      (t.chart cycle.kind).report (Cube.solved.run s) = .ok own ∧
      cycle.judge (t.chart cycle.kind) own other = .valid := by
  constructor
  · intro h
    obtain ⟨other, ho, h⟩ := Outcome.bind_eq_ok_iff.mp h
    obtain ⟨own, hw, h⟩ := Outcome.bind_eq_ok_iff.mp h
    exact ⟨other, own, ho, hw, Except.ok.inj h⟩
  · rintro ⟨other, own, ho, hw, h⟩
    exact (cycle.check_eq ho hw).trans (congrArg _ h)

/-- With the Speffz charts every sequence gets a verdict. -/
theorem exists_check (ht : Lettering.speffz = .ok t) (cycle : Cycle) (s : Sequence) :
    ∃ v, cycle.check t s = .ok v := by
  obtain ⟨other, ho⟩ := (Lettering.speffz_faithful ht cycle.kind.other).exists_tracks
  obtain ⟨own, hw⟩ := (Lettering.speffz_faithful ht cycle.kind).exists_tracks
  exact ⟨_, cycle.check_eq (ho.report_run s) (hw.report_run s)⟩

/-! ## The moves that a valid verdict allows -/

/-- The three letters go around, and all other pieces stay. -/
structure Performed (cycle : Cycle) (t : Lettering) (s : Sequence) : Prop where
  other {p : Sticker} : p.kind? = some cycle.kind.other → Sequence.perm s p = p
  bystander {l : Letter} : cycle.isBystander (t.chart cycle.kind) l →
    Sequence.perm s ((t.chart cycle.kind).sticker l) = (t.chart cycle.kind).sticker l
  target1 : Sequence.perm s ((t.chart cycle.kind).sticker cycle.target1) =
    (t.chart cycle.kind).sticker cycle.buffer
  target2 : Sequence.perm s ((t.chart cycle.kind).sticker cycle.target2) =
    (t.chart cycle.kind).sticker cycle.target1
  buffer : Sequence.perm s ((t.chart cycle.kind).sticker cycle.buffer) =
    (t.chart cycle.kind).sticker cycle.target2

section

variable (ht : Lettering.speffz = .ok t)
include ht

theorem forall_sticker {P : Sticker → Prop} (k : PieceKind) (other : ∀ p, p.kind? = some k.other → P p)
    (own : ∀ l, P ((t.chart k).sticker l)) {p : Sticker} (hp : p.kind? ≠ none) : P p := by
  obtain ⟨k', hk'⟩ := Option.ne_none_iff_exists'.mp hp
  by_cases he : k' = k
  · subst he
    obtain ⟨l, rfl⟩ := Lettering.speffz_exists_sticker_eq ht hk'
    exact own l
  · refine other p (hk'.trans ?_)
    cases k <;> cases k' <;> first | rfl | exact absurd rfl he

theorem performed_of_check (h : cycle.check t s = .ok .valid) : cycle.Performed t s := by
  obtain ⟨other, own, ho, hw, h⟩ := check_eq_valid_iff.mp h
  obtain ⟨hid, hb, hs⟩ := judge_eq_valid_iff.mp h
  have hfo := Lettering.speffz_faithful ht cycle.kind.other
  have hfw := Lettering.speffz_faithful ht cycle.kind
  simp only [isShownBy, Bool.and_eq_true, decide_eq_true_eq] at hs
  refine ⟨fun {p} hp => ?_, fun {l} hl => ?_, ?_, ?_, ?_⟩
  · obtain ⟨l, rfl⟩ := Lettering.speffz_exists_sticker_eq ht hp
    have hl := List.all_eq_true.mp hid l (List.mem_finRange l)
    rw [← hfo.sticker_get ho, of_decide_eq_true hl]
  · rw [← hfw.sticker_get hw, of_decide_eq_true (hb l hl)]
  · rw [← hfw.sticker_get hw, hs.1.1]
  · rw [← hfw.sticker_get hw, hs.1.2]
  · rw [← hfw.sticker_get hw, hs.2]

theorem Performed.perm_of_outside (h : cycle.Performed t s) {p : Sticker} (hp : p.kind? ≠ none)
    (hout : ∀ l, cycle.isBystander (t.chart cycle.kind) l = false → p ≠ (t.chart cycle.kind).sticker l) :
    Sequence.perm s p = p := by
  revert hout
  refine forall_sticker ht (P := fun p => (∀ l, cycle.isBystander (t.chart cycle.kind) l = false →
      p ≠ (t.chart cycle.kind).sticker l) → Sequence.perm s p = p) cycle.kind
    (fun p hp _ => h.other hp) (fun l hout => h.bystander ?_) hp
  by_contra hl
  exact hout l (Bool.not_eq_true _ ▸ hl) rfl

/-- Rigid permutations that agree on the three letters and on all other pieces are equal. -/
theorem eq_of_letters (cycle : Cycle) {f g : Equiv.Perm Sticker} (hf : f ∈ Rigid) (hg : g ∈ Rigid)
    (other : ∀ p, p.kind? = some cycle.kind.other → f p = g p)
    (bystander : ∀ l, cycle.isBystander (t.chart cycle.kind) l →
      f ((t.chart cycle.kind).sticker l) = g ((t.chart cycle.kind).sticker l))
    (letters : ∀ l ∈ [cycle.buffer, cycle.target1, cycle.target2],
      f ((t.chart cycle.kind).sticker l) = g ((t.chart cycle.kind).sticker l))
    {p : Sticker} (hp : p.kind? ≠ none) : f p = g p := by
  refine forall_sticker ht (P := fun p => f p = g p) cycle.kind other (fun l => ?_) hp
  by_cases hl : cycle.isBystander (t.chart cycle.kind) l
  · exact bystander l hl
  · simp only [isBystander, Bool.not_eq_true, Bool.not_eq_false', List.any_eq_true] at hl
    obtain ⟨m, hm, hml⟩ := hl
    have hs := (Lettering.speffz_faithful ht cycle.kind).mem_related_iff.mp (List.contains_iff_mem.mp hml)
    exact Rigid.eq_of_samePiece hf hg hs (letters m hm)

theorem Performed.perm_eq (h : cycle.Performed t s) (h' : cycle.Performed t s') {p : Sticker}
    (hp : p.kind? ≠ none) : Sequence.perm s p = Sequence.perm s' p := by
  refine cycle.eq_of_letters ht s.perm_rigid s'.perm_rigid (fun p hp => (h.other hp).trans (h'.other hp).symm)
    (fun l hl => (h.bystander hl).trans (h'.bystander hl).symm) (fun l hl => ?_) hp
  simp only [List.mem_cons, List.not_mem_nil, or_false] at hl
  rcases hl with rfl | rfl | rfl
  · exact h.buffer.trans h'.buffer.symm
  · exact h.target1.trans h'.target1.symm
  · exact h.target2.trans h'.target2.symm

/-- Done three times, the moves bring every edge and corner home. -/
theorem Performed.perm_pow_three (h : cycle.Performed t s) {p : Sticker} (hp : p.kind? ≠ none) :
    (Sequence.perm s ^ 3) p = p := by
  refine cycle.eq_of_letters ht (Rigid.pow_mem s.perm_rigid 3) Rigid.one_mem (fun p hp => ?_) (fun l hl => ?_)
    (fun l hl => ?_) hp
  · change Sequence.perm s (Sequence.perm s (Sequence.perm s p)) = p
    rw [h.other hp, h.other hp, h.other hp]
  · change Sequence.perm s (Sequence.perm s (Sequence.perm s _)) = _
    rw [h.bystander hl, h.bystander hl, h.bystander hl]
    rfl
  · change Sequence.perm s (Sequence.perm s (Sequence.perm s _)) = (t.chart cycle.kind).sticker l
    simp only [List.mem_cons, List.not_mem_nil, or_false] at hl
    rcases hl with rfl | rfl | rfl
    · rw [h.buffer, h.target2, h.target1]
    · rw [h.target1, h.buffer, h.target2]
    · rw [h.target2, h.target1, h.buffer]

end

/-! ## Other pieces -/

/-- The verdict, when there is one, is valid. -/
def isValid (cycle : Cycle) (t : Lettering) (s : Sequence) : Bool :=
  (cycle.check t s).toOption.any (· = .valid)

theorem check_of_isValid (h : cycle.isValid t s) : cycle.check t s = .ok .valid := by
  obtain ⟨v, hv, h⟩ := Outcome.exists_ok_of_any h
  rw [hv, of_decide_eq_true h]

/-- Two comms for the cycle of the corner stickers `c`, `p` and `l`, found valid by checking them. -/
theorem exists_valid : ∃ t comm comm', Lettering.speffz = .ok t ∧ Comm.parse "[R U R', D]" = .ok comm ∧
    Comm.parse "([D, R U R'])2" = .ok comm' ∧
    check ⟨.corner, 2, 15, 11⟩ t comm.expand = .ok .valid ∧
    check ⟨.corner, 2, 15, 11⟩ t comm'.expand = .ok .valid := by
  obtain ⟨comm, hc, h⟩ := Outcome.exists_ok_of_any (x := Comm.parse "[R U R', D]")
    (P := fun comm => (Comm.parse "([D, R U R'])2").toOption.any fun comm' =>
      Lettering.speffz.toOption.any fun t =>
        isValid ⟨.corner, 2, 15, 11⟩ t comm.expand && isValid ⟨.corner, 2, 15, 11⟩ t comm'.expand)
    (by decide +kernel)
  obtain ⟨comm', hc', h⟩ := Outcome.exists_ok_of_any h
  obtain ⟨t, ht, h⟩ := Outcome.exists_ok_of_any h
  obtain ⟨h, h'⟩ := Bool.and_eq_true_iff.mp h
  exact ⟨t, comm, comm', ht, hc, hc', check_of_isValid h, check_of_isValid h'⟩

/-- A valid comm leaves every edge and corner outside the cycle alone, and turns the centers like evenly many
quarter rotations of the whole cube. -/
theorem others_of_valid (ht : Lettering.speffz = .ok t) {comm : Comm}
    (h : cycle.check t comm.expand = .ok .valid) :
    (∀ p : Sticker, p ≠ .center p.face →
      (∀ l, cycle.isBystander (t.chart cycle.kind) l = false → p ≠ (t.chart cycle.kind).sticker l) →
      (Cube.solved.run comm.expand).get p = p.face.solvedColor) ∧
    ∃ r : Sequence, (∀ m ∈ r, ∃ a d, m = Axis.quarter a d) ∧ Even r.length ∧
      ∀ f, (Cube.solved.run comm.expand).center f = (Cube.solved.run r).center f := by
  have hd := performed_of_check ht h
  refine ⟨fun p hp hout => ?_, comm.expand.carried, fun m => comm.expand.exists_eq_quarter,
    Sequence.even_carried fun p hp => hd.perm_pow_three ht hp, fun f => ?_⟩
  · have hk : p.kind? ≠ none := mt (Sticker.kind?_eq_none_iff p).mp hp
    rw [Cube.get_run, hd.perm_of_outside ht hk hout, Cube.get_solved]
  · have hk : (Sticker.center f).kind? = none := (Sticker.kind?_eq_none_iff _).mpr rfl
    rw [Cube.center, Cube.center, Cube.get_run, Cube.get_run, Sequence.perm_carried _ hk]

theorem others_of_valid_commutator : ∃ t comm, Lettering.speffz = .ok t ∧
    Comm.parse "[R U R', D]" = .ok comm ∧ check ⟨.corner, 2, 15, 11⟩ t comm.expand = .ok .valid ∧
    (Cube.solved.run comm.expand).get ⟨.U, 0, 1⟩ = .white ∧
    ∃ r : Sequence, (∀ m ∈ r, ∃ a d, m = Axis.quarter a d) ∧ Even r.length ∧
      ∀ f, (Cube.solved.run comm.expand).center f = (Cube.solved.run r).center f := by
  obtain ⟨t, comm, -, ht, hc, -, h, -⟩ := exists_valid
  obtain ⟨others, centers⟩ := others_of_valid ht h
  refine ⟨t, comm, ht, hc, h, others ⟨.U, 0, 1⟩ (by decide) fun l _ he => ?_, centers⟩
  have hk := (Lettering.speffz_faithful ht .corner).kind?_sticker l
  have hcorner : (t.chart .corner).kind = .corner := (Lettering.build_checked ht _).1
  rw [← he, hcorner] at hk
  exact absurd hk (by decide +kernel)

/-- The verdict does not see the centers. -/
theorem check_valid_with_centers_moved : ∃ t comm, Lettering.speffz = .ok t ∧
    Comm.parse "[M, E] [R U R', D]" = .ok comm ∧
    t.corners.areRelated 2 15 = false ∧ t.corners.areRelated 2 11 = false ∧
    t.corners.areRelated 15 11 = false ∧ check ⟨.corner, 2, 15, 11⟩ t comm.expand = .ok .valid ∧
    (Cube.solved.run comm.expand).center .U ≠ Face.U.solvedColor := by
  obtain ⟨comm, hc, h⟩ := Outcome.exists_ok_of_any (x := Comm.parse "[M, E] [R U R', D]")
    (P := fun comm => Lettering.speffz.toOption.any fun t =>
      isValid ⟨.corner, 2, 15, 11⟩ t comm.expand && decide (t.corners.areRelated 2 15 = false ∧
        t.corners.areRelated 2 11 = false ∧ t.corners.areRelated 15 11 = false ∧
        (Cube.solved.run comm.expand).center .U ≠ Face.U.solvedColor))
    (by decide +kernel)
  obtain ⟨t, ht, h⟩ := Outcome.exists_ok_of_any h
  obtain ⟨h, hd⟩ := Bool.and_eq_true_iff.mp h
  obtain ⟨hbp, hbl, hpl, hcenter⟩ := of_decide_eq_true hd
  exact ⟨t, comm, ht, hc, hbp, hbl, hpl, check_of_isValid h, hcenter⟩

/-! ## One effect -/

/-- Valid comms for one cycle have the same reports. -/
theorem reports_eq_of_valid (ht : Lettering.speffz = .ok t) {comm comm' : Comm}
    (h : cycle.check t comm.expand = .ok .valid) (h' : cycle.check t comm'.expand = .ok .valid)
    (k : PieceKind) : ∃ r, (t.chart k).report (Cube.solved.run comm.expand) = .ok r ∧
      (t.chart k).report (Cube.solved.run comm'.expand) = .ok r := by
  have hf := Lettering.speffz_faithful ht k
  obtain ⟨σ, hσ⟩ := hf.exists_letterPerm comm.expand.perm_rigid
  refine ⟨.ofFn σ, hf.report_eq_ofFn hσ, hf.report_eq_ofFn fun l => ?_⟩
  have hk : ((t.chart k).sticker l).kind? ≠ none := by
    rw [hf.kind?_sticker]
    exact Option.some_ne_none _
  rw [hσ, (performed_of_check ht h).perm_eq ht (performed_of_check ht h') hk]

theorem reports_eq_of_valid_commutator : ∃ t comm comm', Lettering.speffz = .ok t ∧
    Comm.parse "[R U R', D]" = .ok comm ∧ Comm.parse "([D, R U R'])2" = .ok comm' ∧
    check ⟨.corner, 2, 15, 11⟩ t comm.expand = .ok .valid ∧
    check ⟨.corner, 2, 15, 11⟩ t comm'.expand = .ok .valid ∧
    ∀ k, ∃ r, (t.chart k).report (Cube.solved.run comm.expand) = .ok r ∧
      (t.chart k).report (Cube.solved.run comm'.expand) = .ok r := by
  obtain ⟨t, comm, comm', ht, hc, hc', h, h'⟩ := exists_valid
  exact ⟨t, comm, comm', ht, hc, hc', h, h', fun k => reports_eq_of_valid ht h h' k⟩

end Cycle
end Blindfold
