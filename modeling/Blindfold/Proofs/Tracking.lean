import Blindfold.Proofs.Pieces
import Blindfold.Proofs.Readings

/-!
# Reports track the stickers

When the groups of a chart are the pieces of the cube, the letters of its stickers move the way the stickers
do, and the report of a run, although it is read off the colors, says how: `Chart.Faithful.exists_tracks`. The
Speffz charts are of this sort.
-/

namespace Blindfold
namespace Chart

/-- Every group names the stickers of one piece. -/
def NamesPieces (t : Chart) : Prop :=
  ∀ piece ∈ t.pieces, ∃ stickers ∈ t.kind.pieces, (piece.map t.sticker).Perm stickers

instance (t : Chart) : Decidable t.NamesPieces := inferInstanceAs (Decidable (∀ _ ∈ _, ∃ _ ∈ _, _))

/-- `report` says of every sequence which letter's sticker it brings to each letter, and does so as a
permutation that respects doing sequences in order and undoing them. -/
structure Tracks (t : Chart) (report : Sequence → Report) : Prop where
  report_run (s : Sequence) : t.report (Cube.solved.run s) = .ok (report s)
  isPermutation (s : Sequence) : (report s).IsPermutation
  color_run (c : Cube) (s : Sequence) (l : Letter) : t.color (c.run s) l = t.color c ((report s).get l)
  append (s s' : Sequence) (l : Letter) : (report (s ++ s')).get l = (report s).get ((report s').get l)
  inverse (s : Sequence) :
    Function.LeftInverse (report s.inverse).get (report s).get ∧
      Function.RightInverse (report s.inverse).get (report s).get

/-- A checked chart whose groups are the pieces of the cube. -/
structure Faithful (t : Chart) : Prop extends t.Checked where
  namesPieces : t.NamesPieces

namespace Faithful

variable {t : Chart} (ht : t.Faithful) {f : Equiv.Perm Sticker} {σ : Equiv.Perm Letter}
include ht

theorem kind?_sticker (l : Letter) : (t.sticker l).kind? = some t.kind := by
  obtain ⟨stickers, hs, hp⟩ := ht.namesPieces _ (ht.related_mem l)
  rw [Sticker.kind?_eq_some_iff]
  exact List.mem_flatten_of_mem hs (hp.mem_iff.mp (List.mem_map_of_mem (ht.mem_related l)))

theorem mem_map_related_iff (l : Letter) (p : Sticker) :
    p ∈ (t.related l).map t.sticker ↔ (t.sticker l).SamePiece p := by
  obtain ⟨stickers, hs, hp⟩ := ht.namesPieces _ (ht.related_mem l)
  rw [hp.mem_iff]
  exact PieceKind.mem_piece_iff hs (hp.mem_iff.mp (List.mem_map_of_mem (ht.mem_related l))) p

theorem sticker_injective : Function.Injective t.sticker := by
  intro l m h
  have hc (n : Letter) : (t.related n).map t.solvedColor =
      ((t.related n).map t.sticker).map Cube.solved.get := by
    rw [List.map_map]
    rfl
  have hr : t.related l = t.related m := by
    refine ht.eq_of_colors (ht.related_mem l) (ht.related_mem m) fun x => ?_
    simp only [hc, List.mem_map (f := Cube.solved.get), ht.mem_map_related_iff, h]
  have hm : m ∈ t.related l := hr ▸ ht.mem_related m
  exact List.inj_on_of_nodup_map (ht.nodup_colors (ht.related_mem l)) (ht.mem_related l) hm
    (congrArg Cube.solved.get h)

theorem mem_related_iff {l m : Letter} : m ∈ t.related l ↔ (t.sticker l).SamePiece (t.sticker m) := by
  rw [← ht.mem_map_related_iff, List.mem_map_of_injective ht.sticker_injective]

theorem exists_sticker_eq {p : Sticker} (hp : p.kind? = some t.kind) : ∃ l, t.sticker l = p := by
  -- There are no more stickers of the kind than letters.
  have hsub : Finset.univ.image t.sticker ⊆ t.kind.pieces.flatten.toFinset := by
    intro q hq
    obtain ⟨l, -, rfl⟩ := Finset.mem_image.mp hq
    exact List.mem_toFinset.mpr ((Sticker.kind?_eq_some_iff _ _).mp (ht.kind?_sticker l))
  have hcard : t.kind.pieces.flatten.toFinset.card ≤ (Finset.univ.image t.sticker).card := by
    rw [Finset.card_image_of_injective _ ht.sticker_injective, Finset.card_univ, Fintype.card_fin]
    refine (List.toFinset_card_le _).trans ?_
    cases t.kind <;> decide
  have hm := List.mem_toFinset.mpr ((Sticker.kind?_eq_some_iff _ _).mp hp)
  rw [← Finset.eq_of_subset_of_card_le hsub hcard] at hm
  obtain ⟨l, -, hl⟩ := Finset.mem_image.mp hm
  exact ⟨l, hl⟩

theorem exists_letterPerm (hf : f ∈ Rigid) :
    ∃ σ : Equiv.Perm Letter, ∀ l, t.sticker (σ l) = f (t.sticker l) := by
  have h (l : Letter) : ∃ m, t.sticker m = f (t.sticker l) := by
    refine ht.exists_sticker_eq ?_
    rw [Rigid.kind? hf, ht.kind?_sticker]
  choose g hg using h
  have hi : Function.Injective g := by
    intro l m he
    have := congrArg t.sticker he
    rw [hg, hg] at this
    exact ht.sticker_injective (f.injective this)
  exact ⟨.ofBijective g (Finite.injective_iff_bijective.mp hi), hg⟩

theorem mem_related_letterPerm (hf : f ∈ Rigid) (hσ : ∀ l, t.sticker (σ l) = f (t.sticker l)) {l m : Letter} :
    σ m ∈ t.related (σ l) ↔ m ∈ t.related l := by
  rw [ht.mem_related_iff, ht.mem_related_iff, hσ, hσ, Rigid.samePiece_iff hf]

theorem report_eq_ofFn {s : Sequence} (hσ : ∀ l, t.sticker (σ l) = Sequence.perm s (t.sticker l)) :
    t.report (Cube.solved.run s) = .ok (.ofFn σ) := by
  have hcolor (l : Letter) : t.color (Cube.solved.run s) l = t.solvedColor (σ l) := by
    rw [color, Cube.get_run, ← hσ]
    rfl
  have hrelated {l m : Letter} : σ m ∈ t.related (σ l) ↔ m ∈ t.related l :=
    ht.mem_related_letterPerm s.perm_rigid hσ
  refine ht.report_eq fun piece hp => ?_
  obtain ⟨l, hl⟩ := ht.exists_mem hp
  obtain rfl := ht.eq_related hp hl
  refine ⟨t.related (σ l), ht.related_mem _, fun x => ?_, hrelated.mpr, fun _ => (hcolor _).symm⟩
  simp only [List.mem_map, hcolor]
  constructor
  · rintro ⟨m, hm, rfl⟩
    refine ⟨σ.symm m, hrelated.mp ?_, ?_⟩
    · rwa [σ.apply_symm_apply]
    · rw [σ.apply_symm_apply]
  · rintro ⟨m, hm, rfl⟩
    exact ⟨σ m, hrelated.mpr hm, rfl⟩

theorem sticker_get {s : Sequence} {r : Report} (h : t.report (Cube.solved.run s) = .ok r) (l : Letter) :
    t.sticker (r.get l) = Sequence.perm s (t.sticker l) := by
  obtain ⟨σ, hσ⟩ := ht.exists_letterPerm s.perm_rigid
  have hr : r = .ofFn σ := Except.ok.inj (h.symm.trans (ht.report_eq_ofFn hσ))
  rw [hr, Report.get_ofFn, hσ]

theorem exists_tracks : ∃ report, t.Tracks report := by
  choose ρ hρ using fun s : Sequence => ht.exists_letterPerm s.perm_rigid
  have append (s s' : Sequence) : ρ (s ++ s') = ρ s * ρ s' := by
    refine Equiv.ext fun l => ht.sticker_injective ?_
    rw [hρ, Sequence.perm_append, Equiv.Perm.mul_apply, Equiv.Perm.mul_apply, hρ, hρ]
  have inverse (s : Sequence) : ρ s.inverse = (ρ s)⁻¹ := by
    refine eq_inv_of_mul_eq_one_left (Equiv.ext fun l => ht.sticker_injective ?_)
    rw [Equiv.Perm.mul_apply, hρ, hρ, Sequence.perm_inverse]
    exact Equiv.symm_apply_apply _ _
  have get (s : Sequence) : (Report.ofFn (ρ s)).get = ρ s := funext (Report.get_ofFn (ρ s))
  refine ⟨fun s => .ofFn (ρ s), fun s => ht.report_eq_ofFn (hρ s), fun s => ?_, fun c s l => ?_,
    fun s s' l => ?_, fun s => ?_⟩
  · rw [Report.isPermutation_iff_injective, get]
    exact (ρ s).injective
  · rw [get, color, color, Cube.get_run, hρ]
  · rw [get, get, get, append, Equiv.Perm.mul_apply]
  · rw [get, get, inverse]
    exact ⟨(ρ s).left_inv, (ρ s).right_inv⟩

end Faithful
end Chart

/-! ## Letterings -/

namespace Lettering

theorem exists_speffz : ∃ t, speffz = .ok t ∧ t.edges.NamesPieces ∧ t.corners.NamesPieces := by
  obtain ⟨t, ht, h⟩ := Outcome.exists_ok_of_any (x := speffz)
    (P := fun t => t.edges.NamesPieces ∧ t.corners.NamesPieces) (by decide +kernel)
  exact ⟨t, ht, of_decide_eq_true h⟩

theorem speffz_faithful {t : Lettering} (ht : speffz = .ok t) (k : PieceKind) : (t.chart k).Faithful := by
  obtain ⟨t', ht', he, hc⟩ := exists_speffz
  obtain rfl := Except.ok.inj (ht.symm.trans ht')
  refine ⟨(build_checked ht k).2, ?_⟩
  cases k with
  | edge => exact he
  | corner => exact hc

theorem speffz_kind?_sticker {t : Lettering} (ht : speffz = .ok t) (k : PieceKind) (l : Letter) :
    ((t.chart k).sticker l).kind? = some k := by
  rw [(speffz_faithful ht k).kind?_sticker, (build_checked ht k).1]

theorem speffz_exists_sticker_eq {t : Lettering} (ht : speffz = .ok t) {k : PieceKind} {p : Sticker}
    (hp : p.kind? = some k) : ∃ l, (t.chart k).sticker l = p := by
  refine (speffz_faithful ht k).exists_sticker_eq ?_
  rw [hp, (build_checked ht k).1]

/-- The reports of the Speffz scheme, of edges and of corners, are the permutations of the stickers. -/
theorem speffz_tracks : ∃ t, speffz = .ok t ∧ ∀ k, ∃ report, (t.chart k).Tracks report := by
  obtain ⟨t, ht, -⟩ := exists_speffz
  exact ⟨t, ht, fun k => (speffz_faithful ht k).exists_tracks⟩

end Lettering

/-! ## Other schemes

The checks compare colors only, so they let through a scheme whose groups are not pieces. Its reports may
repeat letters, and they do so exactly when two groups show the same colors. -/

namespace Lettering

/-- When a report that is made is a permutation, and the schemes for which this is so after every sequence. -/
theorem report_isPermutation_iff {scheme : Scheme} {t : Lettering} (ht : build scheme = .ok t)
    (k : PieceKind) :
    (∀ c r, (t.chart k).report c = .ok r →
      (r.IsPermutation ↔ (t.chart k).pieces.Pairwise fun piece other =>
        ¬ Color.sameSet (piece.map ((t.chart k).color c)) (other.map ((t.chart k).color c)))) ∧
    ((t.chart k).NamesPieces →
      ∀ s, ∃ r, (t.chart k).report (Cube.solved.run s) = .ok r ∧ r.IsPermutation) := by
  have hk := (build_checked ht k).2
  refine ⟨fun c r h => hk.isPermutation_iff h, fun hn s => ?_⟩
  obtain ⟨report, h⟩ := Chart.Faithful.exists_tracks ⟨hk, hn⟩
  exact ⟨report s, h.report_run s, h.isPermutation s⟩

theorem report_isPermutation_iff_speffz :
    ∃ t, build .speffz = .ok t ∧ t.edges.NamesPieces ∧
      ∃ r, t.edges.report (Cube.solved.run [⟨.face .B, .clockwise⟩]) = .ok r ∧ r.IsPermutation ∧
        t.edges.pieces.Pairwise fun piece other =>
          ¬ Color.sameSet (piece.map (t.edges.color (Cube.solved.run [⟨.face .B, .clockwise⟩])))
            (other.map (t.edges.color (Cube.solved.run [⟨.face .B, .clockwise⟩]))) := by
  obtain ⟨t, ht, he, -⟩ := exists_speffz
  obtain ⟨hiff, hrun⟩ := report_isPermutation_iff ht .edge
  obtain ⟨r, hr, hp⟩ := hrun he [⟨.face .B, .clockwise⟩]
  exact ⟨t, ht, he, r, hr, hp, (hiff _ r hr).mp hp⟩

end Lettering

/-- The Speffz scheme with `i` of the group `ci` and `q` of the group `aq` exchanged. -/
def Scheme.exchanged : Scheme where
  edges := {
    placements := speffz.edges.placements
    groups := ["ai", "bm", "cq", "de", "fl", "hr", "jp", "nt", "gx", "ku", "ov", "sw"].map (·.toList) }
  corners := speffz.corners

theorem Lettering.exchanged_report :
    ∃ t, build .exchanged = .ok t ∧
      ∃ r, t.edges.report (Cube.solved.run [⟨.face .B, .clockwise⟩]) = .ok r ∧ ¬ r.IsPermutation := by
  obtain ⟨t, ht, h⟩ := Outcome.exists_ok_of_any (x := build .exchanged)
    (P := fun t => (t.edges.report (Cube.solved.run [⟨.face .B, .clockwise⟩])).toOption.any
      fun r => ¬ r.IsPermutation) (by decide +kernel)
  obtain ⟨r, hr, hn⟩ := Outcome.exists_ok_of_any h
  exact ⟨t, ht, r, hr, of_decide_eq_true hn⟩

end Blindfold
