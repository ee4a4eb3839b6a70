import Mathlib.Data.Multiset.Bind
import Blindfold.Proofs.Consistency
import Blindfold.Proofs.Transport

/-!
# Schemes in other words

When the letters of an accepted scheme are renamed, and its records, its groups and the letters of a group are put in
another order, the scheme is accepted again. Its reports and verdicts are the same with the letters renamed:
`Lettering.build_renamed`.
-/

namespace Blindfold

/-- Two results that are related, or two failures on pieces of one kind. -/
inductive SameOutcome {α β : Type} (R : α → β → Prop) : Except LabelError α → Except LabelError β → Prop where
  | ok {a : α} {b : β} (h : R a b) : SameOutcome R (.ok a) (.ok b)
  | unknownPiece {kind : PieceKind} {letters letters' : String} :
      SameOutcome R (.error (.unknownPiece kind letters)) (.error (.unknownPiece kind letters'))

theorem SameOutcome.eq_ok {α : Type} {a : α} {x : Except LabelError α} (h : SameOutcome Eq (.ok a) x) : x = .ok a := by
  cases h with
  | ok h => rw [h]

theorem SameOutcome.bind {α β γ δ : Type} {R : α → β → Prop} {S : γ → δ → Prop} {x : Except LabelError α}
    {y : Except LabelError β} {f : α → Except LabelError γ} {g : β → Except LabelError δ} (h : SameOutcome R x y)
    (hf : ∀ a b, R a b → SameOutcome S (f a) (g b)) : SameOutcome S (x >>= f) (y >>= g) := by
  cases h with
  | ok h => exact hf _ _ h
  | unknownPiece => exact .unknownPiece

/-! ## Schemes -/

namespace Letter

theorem ofChar?_toChar (l : Letter) : ofChar? l.toChar = some l := by
  revert l
  decide

/-- The letter that `π` gives, in place of a letter. -/
def renameChar (π : Equiv.Perm Letter) (c : Char) : Char :=
  match ofChar? c with
  | some l => (π l).toChar
  | none => c

theorem ofChar?_renameChar (π : Equiv.Perm Letter) (c : Char) : ofChar? (renameChar π c) = (ofChar? c).map π := by
  unfold renameChar
  cases h : ofChar? c with
  | none => exact h
  | some l => exact ofChar?_toChar _

variable {π : Equiv.Perm Letter} {α β : Type} {c : α → Char} {d : β → Char} {xs : List α} {ys : List β}
  (h : (ys.map fun y => ofChar? (d y)).Perm (xs.map fun x => (ofChar? (c x)).map π))
include h

theorem exists_isWritten_of_renamed {l : Letter} (hl : ∃ y ∈ ys, (π l).IsWritten (d y)) :
    ∃ x ∈ xs, l.IsWritten (c x) := by
  obtain ⟨y, hy, hl⟩ := hl
  obtain ⟨x, hx, he⟩ := List.mem_map.mp (h.mem_iff.mp (List.mem_map_of_mem hy))
  rw [ofChar?_eq_some_iff.mpr hl, Option.map_eq_some_iff] at he
  obtain ⟨m, hm, he⟩ := he
  obtain rfl := π.injective he
  exact ⟨x, hx, ofChar?_eq_some_iff.mp hm⟩

theorem exists_letter_of_renamed (hxs : ∀ x ∈ xs, ∃ l : Letter, l.IsWritten (c x)) {y : β} (hy : y ∈ ys) :
    ∃ l : Letter, l.IsWritten (d y) := by
  obtain ⟨x, hx, he⟩ := List.mem_map.mp (h.mem_iff.mp (List.mem_map_of_mem hy))
  obtain ⟨l, hl⟩ := hxs x hx
  rw [ofChar?_eq_some_iff.mpr hl, Option.map_some] at he
  exact ⟨π l, ofChar?_eq_some_iff.mp he.symm⟩

theorem countP_of_renamed (l : Letter) :
    ys.countP (fun y => l.IsWritten (d y)) = xs.countP (fun x => (π⁻¹ l).IsWritten (c x)) := by
  have hl : some l = (some (π⁻¹ l)).map π := congrArg some (π.apply_symm_apply l).symm
  have hc := List.count_map_of_injective (xs.map fun x => ofChar? (c x)) _ (Option.map_injective π.injective)
    (some (π⁻¹ l))
  rw [Chart.countP_isWritten, Chart.countP_isWritten, h.count_eq, hl, ← hc, List.map_map]
  rfl

end Letter

namespace PieceScheme

/-- The second scheme says of the letters that `π` gives what the first says of the letters, in any order. -/
structure Renames (π : Equiv.Perm Letter) (s s' : PieceScheme) : Prop where
  placements : (s'.placements.map fun p => (Letter.ofChar? p.letter, p.face, p.row, p.col)).Perm
    (s.placements.map fun p => ((Letter.ofChar? p.letter).map π, p.face, p.row, p.col))
  groups : (s'.groups.map fun g => (g.map Letter.ofChar? : Multiset (Option Letter))).Perm
    (s.groups.map fun g => (g.map fun c => (Letter.ofChar? c).map π : Multiset (Option Letter)))

/-- The same tables with the letters that `π` gives. -/
def rename (π : Equiv.Perm Letter) (s : PieceScheme) : PieceScheme where
  placements := s.placements.map fun p => { p with letter := Letter.renameChar π p.letter }
  groups := s.groups.map (List.map (Letter.renameChar π))

theorem renames_of_perm {π : Equiv.Perm Letter} {s s' : PieceScheme}
    (hp : s'.placements.Perm (s.rename π).placements)
    (hg : (s'.groups.map (Multiset.ofList ·)).Perm ((s.rename π).groups.map (Multiset.ofList ·))) :
    s.Renames π s' where
  placements := by
    have h := hp.map fun p => (Letter.ofChar? p.letter, p.face, p.row, p.col)
    simpa [rename, Function.comp_def, Letter.ofChar?_renameChar] using h
  groups := by
    have h := hg.map (Multiset.map Letter.ofChar?)
    simpa [rename, Function.comp_def, Letter.ofChar?_renameChar] using h

/-- The same tables with the last letter for the first, and all lists from their end. -/
def backwards (s : PieceScheme) : PieceScheme where
  placements := (s.rename Fin.revPerm).placements.reverse
  groups := (s.rename Fin.revPerm).groups.reverse.map List.reverse

theorem renames_backwards (s : PieceScheme) : s.Renames Fin.revPerm s.backwards := by
  refine renames_of_perm (List.reverse_perm _) ?_
  simp [backwards, Function.comp_def]

namespace Renames

variable {π : Equiv.Perm Letter} {s s' : PieceScheme} {kind : PieceKind} (h : s.Renames π s')
include h

theorem symm : s'.Renames π⁻¹ s where
  placements := by
    have hp := h.placements.symm.map (Prod.map (Option.map ⇑π⁻¹) id)
    simpa [Function.comp_def] using hp
  groups := by
    have hg := h.groups.symm.map (Multiset.map (Option.map ⇑π⁻¹))
    simpa [Function.comp_def] using hg

theorem exists_placement {p : Placement} (hp : p ∈ s.placements) :
    ∃ p' ∈ s'.placements, p'.read? = p.read?.map (Prod.map π id) := by
  obtain ⟨p', hp', he⟩ := List.mem_map.mp (h.placements.mem_iff.mpr (List.mem_map_of_mem hp))
  simp only [Prod.mk.injEq] at he
  refine ⟨p', hp', ?_⟩
  rw [Placement.read?, Placement.read?, he.1, he.2.1, he.2.2.1, he.2.2.2]
  cases Letter.ofChar? p.letter <;> cases Sticker.ofCoordinates? p.face p.row p.col <;> rfl

theorem exists_group {g' : List Char} (hg' : g' ∈ s'.groups) :
    ∃ g ∈ s.groups, (g'.map Letter.ofChar?).Perm (g.map fun c => (Letter.ofChar? c).map π) := by
  obtain ⟨g, hg, he⟩ := List.mem_map.mp (h.groups.mem_iff.mp (List.mem_map_of_mem hg'))
  exact ⟨g, hg, (Multiset.coe_eq_coe.mp he).symm⟩

theorem flatten_groups : (s'.groups.flatten.map Letter.ofChar?).Perm
    (s.groups.flatten.map fun c => (Letter.ofChar? c).map π) := by
  have join (f : Char → Option Letter) (gs : List (List Char)) :
      Multiset.join (gs.map fun g => (g.map f : Multiset (Option Letter))) =
        (gs.flatten.map f : Multiset (Option Letter)) := by
    rw [List.map_flatten, ← Multiset.coe_join, List.map_map]
    rfl
  have hj := congrArg Multiset.join (Multiset.coe_eq_coe.mpr h.groups)
  rwa [join, join, Multiset.coe_eq_coe] at hj

theorem placed_once (l : Letter) : s'.placements.countP (fun p => l.IsWritten p.letter) =
    s.placements.countP (fun p => (π⁻¹ l).IsWritten p.letter) := by
  refine Letter.countP_of_renamed ?_ l
  simpa [Function.comp_def] using h.placements.map Prod.fst

theorem grouped_once (l : Letter) : s'.groups.flatten.countP (fun c => l.IsWritten c) =
    s.groups.flatten.countP (fun c => (π⁻¹ l).IsWritten c) :=
  Letter.countP_of_renamed (c := id) (d := id) h.flatten_groups l

theorem solvedColor?_eq {t : Chart} (hr : t.Reads s) {c : Char} {l : Letter} (hc : (π l).IsWritten c) :
    s'.solvedColor? c = some (t.solvedColor l) := by
  obtain ⟨p, hp, hread⟩ := hr.exists_placement l
  obtain ⟨p', hp', hread'⟩ := h.exists_placement hp
  refine solvedColor?_eq_of_mem ?_ hp' (hread'.trans (congrArg _ hread)) hc
  rw [h.placed_once, hr.placed_once]

theorem colors_perm {t : Chart} (hr : t.Reads s) (hs : ∀ g ∈ s'.groups, ∀ c ∈ g, ∃ l : Letter, l.IsWritten c) :
    (s'.groups.map fun g => (g.map s'.solvedColor? : Multiset (Option Color))).Perm
      (s.groups.map fun g => (g.map s.solvedColor? : Multiset (Option Color))) := by
  have hs' : s'.groups.map (List.map s'.solvedColor?) =
      s'.groups.map (List.map fun c => (Letter.ofChar? c).map fun l => t.solvedColor (π⁻¹ l)) := by
    refine Chart.map_colors fun g hg c hc => ?_
    obtain ⟨l, hl⟩ := hs g hg c hc
    exact ⟨l, hl, h.solvedColor?_eq hr ((π.apply_symm_apply l).symm ▸ hl)⟩
  -- Both sides are the letters of the groups, colored by the chart of the first scheme.
  have hp := h.groups.map (Multiset.map (Option.map fun l => t.solvedColor (π⁻¹ l)))
  have hl := congrArg (List.map Multiset.ofList) hs'
  have hr := congrArg (List.map Multiset.ofList) hr.map_solvedColor?
  simp only [List.map_map, Function.comp_def, Multiset.map_coe, Option.map_map, Equiv.Perm.coe_inv,
    π.symm_apply_apply] at hp hl hr
  rwa [hl, hr]

/-- What a scheme must be like does not depend on names and order. -/
theorem consistent (hs : s.Consistent kind) : s'.Consistent kind := by
  obtain ⟨t, rfl, hr, -⟩ := Chart.exists_of_consistent hs
  have hread : ∀ p' ∈ s'.placements, p'.read?.isSome := by
    intro p' hp'
    obtain ⟨p, hp, he⟩ := h.symm.exists_placement hp'
    rw [← Option.isSome_map, ← he]
    exact hr.read?_isSome hp
  have hgrouped : ∀ g' ∈ s'.groups, ∀ c ∈ g', ∃ l : Letter, l.IsWritten c := by
    intro g' hg' c hc
    obtain ⟨g, hg, hp⟩ := h.exists_group hg'
    exact Letter.exists_letter_of_renamed (d := id) hp (hs.grouped g hg) hc
  have hcolors := h.colors_perm hr hgrouped
  refine ⟨fun p' hp' => (Placement.read?_isSome_iff.mp (hread p' hp')).1,
    fun p' hp' => (Placement.read?_isSome_iff.mp (hread p' hp')).2, fun l => ?_, hgrouped, fun g' hg' => ?_,
    fun l => ?_, fun g' hg' => ?_, ?_⟩
  · rw [h.placed_once, hs.placed_once]
  · obtain ⟨g, hg, hp⟩ := h.exists_group hg'
    have hl := hp.length_eq
    rw [List.length_map, List.length_map] at hl
    rw [hl, hs.length_eq g hg]
  · rw [h.grouped_once, hs.grouped_once]
  · obtain ⟨g, hg, hp⟩ := List.mem_map.mp (hcolors.mem_iff.mp (List.mem_map_of_mem hg'))
    exact (Multiset.coe_eq_coe.mp hp).nodup_iff.mp (hs.nodup_colors g hg)
  · have hf := (hcolors.map Multiset.toFinset).nodup_iff
    rw [List.map_map, List.map_map] at hf
    exact hf.mpr hs.apart

end Renames
end PieceScheme

/-! ## Charts -/

namespace Chart

/-- The second chart is the first with the letters that `π` gives. -/
structure Renamed (π : Equiv.Perm Letter) (t t' : Chart) : Prop where
  kind_eq : t'.kind = t.kind
  sticker_eq (l : Letter) : t'.sticker (π l) = t.sticker l
  areRelated_eq (a b : Letter) : t'.areRelated (π a) (π b) = t.areRelated a b

variable {π : Equiv.Perm Letter} {s s' : PieceScheme} {t t' : Chart} {c : Cube}

theorem Reads.areRelated_of_renames (h : s.Renames π s') (hr : t.Reads s) (hc : t.Checked) (hr' : t'.Reads s')
    (hc' : t'.Checked) {a b : Letter} (hab : t'.areRelated (π a) (π b)) : t.areRelated a b := by
  obtain ⟨g', hg', ha, hb⟩ := (hr'.areRelated_iff hc').mp hab
  obtain ⟨g, hg, hp⟩ := h.exists_group hg'
  exact (hr.areRelated_iff hc).mpr ⟨g, hg, Letter.exists_isWritten_of_renamed (d := id) hp ha,
    Letter.exists_isWritten_of_renamed (d := id) hp hb⟩

theorem Reads.renamed (h : s.Renames π s') (hr : t.Reads s) (hc : t.Checked) (hr' : t'.Reads s') (hc' : t'.Checked)
    (hk : t'.kind = t.kind) : t.Renamed π t' where
  kind_eq := hk
  sticker_eq l := by
    obtain ⟨p, hp, hread⟩ := hr.exists_placement l
    obtain ⟨p', hp', hread'⟩ := h.exists_placement hp
    obtain ⟨m, hm⟩ := hr'.placement hp'
    rw [hread, Option.map_some, hm] at hread'
    obtain ⟨rfl, hs⟩ := Prod.mk.inj (Option.some.inj hread')
    exact hs
  areRelated_eq a b := by
    rw [Bool.eq_iff_iff]
    refine ⟨areRelated_of_renames h hr hc hr' hc', fun hab => areRelated_of_renames h.symm hr' hc' hr hc ?_⟩
    simpa using hab

namespace Renamed

variable (h : t.Renamed π t')
include h

theorem symm : t'.Renamed π⁻¹ t where
  kind_eq := h.kind_eq.symm
  sticker_eq l := by rw [← h.sticker_eq, Equiv.Perm.coe_inv, π.apply_symm_apply]
  areRelated_eq a b := by
    rw [← h.areRelated_eq, Equiv.Perm.coe_inv, π.apply_symm_apply, π.apply_symm_apply]

theorem color_eq (c : Cube) (l : Letter) : t'.color c (π l) = t.color c l := by
  rw [color, color, h.sticker_eq]

theorem mem_related_iff {a l : Letter} : π l ∈ t'.related (π a) ↔ l ∈ t.related a := by
  rw [← List.contains_iff_mem, ← List.contains_iff_mem]
  exact Bool.eq_iff_iff.mp (h.areRelated_eq a l)

theorem mem_colors_iff {a : Letter} {x : Color} :
    x ∈ (t'.related (π a)).map (t'.color c) ↔ x ∈ (t.related a).map (t.color c) := by
  rw [List.mem_map, List.mem_map, ← π.exists_congr_right]
  simp only [h.mem_related_iff, h.color_eq]

theorem shows {f : Letter → Letter} {a b : Letter} (hs : t.Shows c f (t.related a) (t.related b)) :
    t'.Shows c (π ∘ f ∘ ⇑π⁻¹) (t'.related (π a)) (t'.related (π b)) := by
  refine ⟨fun x => ?_, fun {l} hl => ?_, fun {l} hl => ?_⟩
  · rw [h.mem_colors_iff, ← hs.colors]
    exact h.mem_colors_iff
  all_goals obtain ⟨l, rfl⟩ := π.surjective l
  · simpa [h.mem_related_iff] using hs.mem (h.mem_related_iff.mp hl)
  · have hcol := hs.color (h.mem_related_iff.mp hl)
    simpa [solvedColor, h.color_eq] using hcol

variable (ht : t.Checked) (ht' : t'.Checked)
include ht ht'

theorem exists_report {r : Report} (hr : t.report c = .ok r) : ∃ r', t'.report c = .ok r' ∧ r.Renamed π r' := by
  refine ⟨.ofFn (π ∘ r.get ∘ ⇑π⁻¹), ht'.report_eq fun piece' hp' => ?_, fun l => by simp⟩
  obtain ⟨l, rfl⟩ := ht'.exists_eq_related hp'
  obtain ⟨a, rfl⟩ := π.surjective l
  obtain ⟨shown, hs, hshows⟩ := ht.report_eq_ok_iff.mp hr _ (ht.related_mem a)
  obtain ⟨b, rfl⟩ := ht.exists_eq_related hs
  exact ⟨_, ht'.related_mem _, h.shows hshows⟩

theorem sameOutcome_report (c : Cube) : SameOutcome (Report.Renamed π) (t.report c) (t'.report c) := by
  cases hr : t.report c with
  | ok r =>
      obtain ⟨r', hr', h⟩ := h.exists_report ht ht' hr
      rw [hr']
      exact .ok h
  | error e =>
      cases hr' : t'.report c with
      | ok r' =>
          obtain ⟨r, hok, -⟩ := h.symm.exists_report ht' ht hr'
          cases hr.symm.trans hok
      | error e' =>
          obtain ⟨piece, -, -, rfl⟩ := exists_piece_of_report hr
          obtain ⟨piece', -, -, rfl⟩ := exists_piece_of_report hr'
          rw [h.kind_eq]
          exact .unknownPiece

end Renamed
end Chart

/-! ## Letterings -/

/-- Renaming the letters of an accepted scheme and putting its lists in another order gives an accepted scheme. Its
reports and verdicts are the same but for the names, and there are none where there were none. -/
theorem Lettering.build_renamed {scheme scheme' : Scheme} {t : Lettering} (ht : build scheme = .ok t)
    {π : PieceKind → Equiv.Perm Letter} (h : ∀ k, (scheme.labels k).Renames (π k) (scheme'.labels k)) :
    ∃ t', build scheme' = .ok t' ∧
      (∀ k a b, (t'.chart k).areRelated (π k a) (π k b) = (t.chart k).areRelated a b) ∧
      (∀ k c, SameOutcome (fun r r' => ∀ p, r'.get (π k p) = π k (r.get p))
        ((t.chart k).report c) ((t'.chart k).report c)) ∧
      ∀ (comm : Comm) k b t₁ t₂, SameOutcome Eq (Cycle.check ⟨k, b, t₁, t₂⟩ t comm.expand)
        (Cycle.check ⟨k, π k b, π k t₁, π k t₂⟩ t' comm.expand) := by
  have hread (k : PieceKind) := Chart.build_eq_ok_iff.mp (build_eq_ok_iff.mp ht k)
  obtain ⟨t', ht'⟩ := exists_build_iff.mpr fun k => (h k).consistent (exists_build_iff.mp ⟨t, ht⟩ k)
  have hread' (k : PieceKind) := Chart.build_eq_ok_iff.mp (build_eq_ok_iff.mp ht' k)
  have hren (k : PieceKind) : (t.chart k).Renamed (π k) (t'.chart k) :=
    (hread k).2.1.renamed (h k) (hread k).2.2 (hread' k).2.1 (hread' k).2.2 ((hread' k).1.trans (hread k).1.symm)
  have hreport (k : PieceKind) (c : Cube) := (hren k).sameOutcome_report (hread k).2.2 (hread' k).2.2 c
  refine ⟨t', ht', fun k => (hren k).areRelated_eq, hreport, fun comm k b t₁ t₂ => ?_⟩
  refine (hreport k.other _).bind fun other other' ho => (hreport k _).bind fun own own' hw => ?_
  have hv := Cycle.judge_of_renamed ⟨k, b, t₁, t₂⟩ (hren k).areRelated_eq hw ho.isIdentity_eq
  exact .ok hv.symm

/-- The Speffz tables read backwards, with the letters from `x` to `a`. -/
theorem Lettering.build_renamed_backwards : ∃ t t' comm, speffz = .ok t ∧
    build ⟨Scheme.speffz.edges.backwards, Scheme.speffz.corners.backwards⟩ = .ok t' ∧
    Comm.parse "[R U R', D]" = .ok comm ∧ Cycle.check ⟨.corner, 2, 15, 11⟩ t comm.expand = .ok .valid ∧
    Cycle.check ⟨.corner, 21, 8, 12⟩ t' comm.expand = .ok .valid := by
  obtain ⟨t, comm, -, ht, hc, -, hv, -⟩ := Cycle.exists_valid
  have hren (k : PieceKind) : (Scheme.speffz.labels k).Renames Fin.revPerm
      (Scheme.labels ⟨Scheme.speffz.edges.backwards, Scheme.speffz.corners.backwards⟩ k) := by
    cases k with
    | edge => exact PieceScheme.renames_backwards _
    | corner => exact PieceScheme.renames_backwards _
  obtain ⟨t', ht', -, -, hcheck⟩ := build_renamed ht hren
  have hv' := hcheck comm .corner 2 15 11
  rw [hv] at hv'
  exact ⟨t, t', comm, ht, ht', hc, hv, hv'.eq_ok⟩

end Blindfold
