import Mathlib.Data.Finset.Card
import Mathlib.Data.Fintype.Basic
import Blindfold.Proofs.Charts

/-!
# Consistent schemes

A scheme is accepted exactly when it is consistent: every letter is placed once, on the cube, and grouped once, with
as many letters in a group as a piece has stickers, and the solved colors tell the letters of a group and the groups
apart. See `Lettering.build_ok_iff_consistent`. The chart then relates the letters of each group to each other.
-/

namespace Blindfold

theorem Chart.count_flatten {groups : List (List Char)} {pieces : List (List Letter)}
    (h : groups.map (List.map Letter.ofChar?) = pieces.map (List.map some)) (l : Letter) :
    groups.flatten.countP (fun c => l.IsWritten c) = pieces.flatten.count l := by
  refine countP_of_read (c := id) ?_ l
  rw [List.map_flatten, List.map_flatten]
  exact congrArg List.flatten h

namespace PieceScheme

/-- The solved color where the letter of a character is placed first. -/
def solvedColor? (s : PieceScheme) (c : Char) : Option Color :=
  (s.placements.find? fun p => p.letter.toLower = c.toLower).bind fun p =>
    (Sticker.ofCoordinates? p.face p.row p.col).map Cube.solved.get

/-- What the tables of one kind of pieces must be like. Letters may be written in either case. -/
structure Consistent (kind : PieceKind) (s : PieceScheme) : Prop where
  placed : ∀ p ∈ s.placements, ∃ l : Letter, l.IsWritten p.letter
  on_cube : ∀ p ∈ s.placements, p.face < 6 ∧ p.row < 3 ∧ p.col < 3
  placed_once (l : Letter) : s.placements.countP (fun p => l.IsWritten p.letter) = 1
  grouped : ∀ g ∈ s.groups, ∀ c ∈ g, ∃ l : Letter, l.IsWritten c
  length_eq : ∀ g ∈ s.groups, g.length = kind.size
  grouped_once (l : Letter) : s.groups.flatten.countP (fun c => l.IsWritten c) = 1
  nodup_colors : ∀ g ∈ s.groups, (g.map s.solvedColor?).Nodup
  apart : (s.groups.map fun g => (g.map s.solvedColor?).toFinset).Nodup

theorem solvedColor?_eq_of_mem {s : PieceScheme} {l : Letter} {p : Placement} {q : Sticker} {c : Char}
    (h : s.placements.countP (fun p => l.IsWritten p.letter) = 1) (hp : p ∈ s.placements)
    (hread : p.read? = some (l, q)) (hc : l.IsWritten c) : s.solvedColor? c = some (Cube.solved.get q) := by
  obtain ⟨hl, hq⟩ := Placement.read?_eq_some_iff.mp hread
  unfold solvedColor?
  cases hf : s.placements.find? fun p => p.letter.toLower = c.toLower with
  | none => exact absurd (decide_eq_true (Eq.trans hl (Eq.symm hc))) (List.find?_eq_none.mp hf p hp)
  | some p' =>
      have hlower : p'.letter.toLower = c.toLower := by simpa using List.find?_some hf
      have hl' : l.IsWritten p'.letter := hlower.trans hc
      obtain rfl := eq_of_countP_eq_one h hp (List.mem_of_find?_eq_some hf) (decide_eq_true hl) (decide_eq_true hl')
      rw [Option.bind_some, hq]
      rfl

namespace Consistent

variable {kind : PieceKind} {s : PieceScheme} (h : s.Consistent kind)
include h

theorem exists_placement (l : Letter) : ∃ q, ∃ p ∈ s.placements, p.read? = some (l, q) := by
  obtain ⟨p, hp, hl⟩ := exists_of_countP_eq_one (h.placed_once l)
  obtain ⟨q, hq⟩ := Option.isSome_iff_exists.mp (Sticker.ofCoordinates?_isSome_iff.mpr (h.on_cube p hp))
  exact ⟨q, p, hp, Placement.read?_eq_some_iff.mpr ⟨of_decide_eq_true hl, hq⟩⟩

theorem exists_pieces :
    ∃ pieces : List (List Letter), s.groups.map (List.map Letter.ofChar?) = pieces.map (List.map some) := by
  refine exists_map_eq_map fun g hg => exists_map_eq_map fun c hc => ?_
  obtain ⟨l, hl⟩ := h.grouped g hg c hc
  exact ⟨l, Letter.ofChar?_eq_some_iff.mpr hl⟩

theorem exists_piece {pieces : List (List Letter)}
    (hp : s.groups.map (List.map Letter.ofChar?) = pieces.map (List.map some)) (l : Letter) :
    ∃ piece ∈ pieces, l ∈ piece := by
  rw [← List.mem_flatten, ← List.count_pos_iff, ← Chart.count_flatten hp, h.grouped_once]
  exact Nat.one_pos

end Consistent
end PieceScheme

theorem Color.sameSet_iff_toFinset {xs ys : List Color} :
    sameSet xs ys ↔ (xs.map some).toFinset = (ys.map some).toFinset := by
  rw [sameSet_iff, Finset.ext_iff]
  simp [Option.forall]

namespace Chart

variable {kind : PieceKind} {scheme : PieceScheme} {t : Chart}

theorem mem_of_read {g : List Char} {piece : List Letter} (h : g.map Letter.ofChar? = piece.map some) {l : Letter} :
    l ∈ piece ↔ ∃ c ∈ g, l.IsWritten c := by
  rw [← List.mem_map_of_injective (Option.some_injective _), ← h, List.mem_map]
  simp only [Letter.ofChar?_eq_some_iff]

theorem map_colors {groups : List (List Char)} {f : Char → Option Color} {color : Letter → Color}
    (h : ∀ g ∈ groups, ∀ c ∈ g, ∃ l : Letter, l.IsWritten c ∧ f c = some (color l)) :
    groups.map (List.map f) = groups.map (List.map fun c => (Letter.ofChar? c).map color) := by
  refine List.map_congr_left fun g hg => List.map_congr_left fun c hc => ?_
  obtain ⟨l, hl, hf⟩ := h g hg c hc
  rw [hf, Letter.ofChar?_eq_some_iff.mpr hl, Option.map_some]

namespace Reads

variable (hr : t.Reads scheme)
include hr

theorem exists_piece {g : List Char} (hg : g ∈ scheme.groups) :
    ∃ piece ∈ t.pieces, piece.map some = g.map Letter.ofChar? :=
  List.mem_map.mp (hr.groups ▸ List.mem_map_of_mem hg)

theorem exists_group {piece : List Letter} (hp : piece ∈ t.pieces) :
    ∃ g ∈ scheme.groups, g.map Letter.ofChar? = piece.map some :=
  List.mem_map.mp (hr.groups ▸ List.mem_map_of_mem hp)

theorem exists_letter {g : List Char} (hg : g ∈ scheme.groups) {c : Char} (hc : c ∈ g) :
    ∃ l : Letter, l.IsWritten c := by
  obtain ⟨piece, -, hp⟩ := hr.exists_piece hg
  obtain ⟨l, -, hl⟩ := List.mem_map.mp (hp ▸ List.mem_map_of_mem hc)
  exact ⟨l, Letter.ofChar?_eq_some_iff.mp hl.symm⟩

theorem solvedColor?_eq {c : Char} {l : Letter} (h : l.IsWritten c) :
    scheme.solvedColor? c = some (t.solvedColor l) := by
  obtain ⟨p, hp, hread⟩ := hr.exists_placement l
  exact PieceScheme.solvedColor?_eq_of_mem (hr.placed_once l) hp hread h

theorem map_solvedColor? : scheme.groups.map (List.map scheme.solvedColor?) =
    scheme.groups.map (List.map fun c => (Letter.ofChar? c).map t.solvedColor) := by
  refine map_colors fun g hg c hc => ?_
  obtain ⟨l, hl⟩ := hr.exists_letter hg hc
  exact ⟨l, hl, hr.solvedColor?_eq hl⟩

theorem colors_eq : scheme.groups.map (List.map scheme.solvedColor?) =
    t.pieces.map fun piece => (piece.map t.solvedColor).map some := by
  have h := congrArg (List.map (List.map (Option.map t.solvedColor))) hr.groups
  simp only [List.map_map, Function.comp_def] at h
  rw [hr.map_solvedColor?, h]
  simp [Function.comp_def]

theorem length_iff {n : Nat} : (∀ g ∈ scheme.groups, g.length = n) ↔ ∀ piece ∈ t.pieces, piece.length = n := by
  have h : (∀ ls ∈ scheme.groups.map (List.map Letter.ofChar?), ls.length = n) ↔
      ∀ ls ∈ t.pieces.map (List.map some), ls.length = n := by rw [hr.groups]
  simpa only [List.forall_mem_map, List.length_map] using h

theorem nodup_colors_iff : (∀ g ∈ scheme.groups, (g.map scheme.solvedColor?).Nodup) ↔
    ∀ piece ∈ t.pieces, (piece.map t.solvedColor).Nodup := by
  have h : (∀ cs ∈ scheme.groups.map (List.map scheme.solvedColor?), cs.Nodup) ↔
      ∀ cs ∈ t.pieces.map fun piece => (piece.map t.solvedColor).map some, cs.Nodup := by rw [hr.colors_eq]
  simpa only [List.forall_mem_map, List.nodup_map_iff (Option.some_injective _)] using h

theorem apart_iff : (scheme.groups.map fun g => (g.map scheme.solvedColor?).toFinset).Nodup ↔
    t.pieces.Pairwise fun piece other =>
      ¬ Color.sameSet (other.map t.solvedColor) (piece.map t.solvedColor) := by
  have h := congrArg (List.map List.toFinset) hr.colors_eq
  simp only [List.map_map, Function.comp_def] at h
  rw [h, List.Nodup, List.pairwise_map]
  refine List.Pairwise.iff fun piece other => not_congr ?_
  rw [Color.sameSet_iff_toFinset, List.map_map, List.map_map, eq_comm]
  rfl

theorem areRelated_iff (hc : t.Checked) {a b : Letter} : t.areRelated a b ↔
    ∃ g ∈ scheme.groups, (∃ c ∈ g, a.IsWritten c) ∧ ∃ c ∈ g, b.IsWritten c := by
  rw [areRelated, List.contains_iff_mem]
  constructor
  · intro h
    obtain ⟨g, hg, hm⟩ := hr.exists_group (hc.related_mem a)
    exact ⟨g, hg, (mem_of_read hm).mp (hc.mem_related a), (mem_of_read hm).mp h⟩
  · rintro ⟨g, hg, ha, hb⟩
    obtain ⟨piece, hp, hm⟩ := hr.exists_piece hg
    rw [← hc.eq_related hp ((mem_of_read hm.symm).mpr ha)]
    exact (mem_of_read hm.symm).mpr hb

theorem read?_isSome {p : Placement} (hp : p ∈ scheme.placements) : p.read?.isSome :=
  Option.isSome_iff_exists.mpr (let ⟨_, h⟩ := hr.placement hp; ⟨_, h⟩)

theorem consistent (hc : t.Checked) : scheme.Consistent t.kind where
  placed p hp := (Placement.read?_isSome_iff.mp (hr.read?_isSome hp)).1
  on_cube p hp := (Placement.read?_isSome_iff.mp (hr.read?_isSome hp)).2
  placed_once := hr.placed_once
  grouped g hg c := hr.exists_letter hg
  length_eq := hr.length_iff.mpr fun _ => hc.length_eq
  grouped_once l := by
    rw [count_flatten hr.groups]
    exact List.count_eq_one_of_mem hc.nodup (hc.mem_flatten l)
  nodup_colors := hr.nodup_colors_iff.mpr fun _ => hc.nodup_colors
  apart := hr.apart_iff.mpr hc.apart

end Reads

/-- A consistent scheme has a chart that passes the checks. -/
theorem exists_of_consistent (h : scheme.Consistent kind) : ∃ t : Chart, t.kind = kind ∧ t.Reads scheme ∧ t.Checked := by
  obtain ⟨pieces, hpieces⟩ := h.exists_pieces
  choose sticker hsticker using h.exists_placement
  choose group hgroup hmem using h.exists_piece hpieces
  let t : Chart := { kind, stickers := Vector.ofFn sticker, pieces, pieceOf := Vector.ofFn group }
  have hs (l : Letter) : t.sticker l = sticker l := by simp [t, Chart.sticker]
  have hg (l : Letter) : t.related l = group l := by simp [t, Chart.related]
  have hr : t.Reads scheme := by
    refine ⟨fun {p} hp => ?_, h.placed_once, hpieces⟩
    -- The record that the sticker of its letter was taken from is this one.
    obtain ⟨l, hl⟩ := h.placed p hp
    obtain ⟨p', hp', hread⟩ := hsticker l
    have hl' : l.IsWritten p'.letter := (Placement.read?_eq_some_iff.mp hread).1
    obtain rfl := eq_of_countP_eq_one (h.placed_once l) hp hp' (decide_eq_true hl) (decide_eq_true hl')
    exact ⟨l, by rw [hs, hread]⟩
  refine ⟨t, rfl, hr, fun l => ?_, fun l => ?_, ?_, fun hp => hr.length_iff.mp h.length_eq _ hp,
    fun hp => hr.nodup_colors_iff.mp h.nodup_colors _ hp, hr.apart_iff.mp h.apart⟩
  · rw [hg]
    exact hgroup l
  · rw [hg]
    exact hmem l
  · rw [List.nodup_iff_count_le_one]
    intro l
    rw [← count_flatten hpieces, h.grouped_once]

theorem exists_build_iff : (∃ t, build kind scheme = .ok t) ↔ scheme.Consistent kind := by
  constructor
  · rintro ⟨t, h⟩
    obtain ⟨rfl, hr, hc⟩ := build_eq_ok_iff.mp h
    exact hr.consistent hc
  · intro h
    obtain ⟨t, hk, hr, hc⟩ := exists_of_consistent h
    exact ⟨t, build_eq_ok_iff.mpr ⟨hk, hr, hc⟩⟩

namespace Checked

variable (ht : t.Checked)
include ht

theorem areRelated_equivalence : Equivalence fun a b => t.areRelated a b = true where
  refl a := List.contains_iff_mem.mpr (ht.mem_related a)
  symm := ht.areRelated_symm
  trans h₁ h₂ := by
    rw [areRelated, ht.related_eq h₁]
    exact h₂

theorem card_related (a : Letter) : (Finset.univ.filter fun b => t.areRelated a b).card = t.kind.size := by
  have hset : (Finset.univ.filter fun b => t.areRelated a b) = (t.related a).toFinset := by
    ext b
    simp [areRelated]
  rw [hset, List.toFinset_card_of_nodup (ht.nodup_piece (ht.related_mem a)), ht.length_eq (ht.related_mem a)]

end Checked
end Chart

theorem Lettering.exists_build_iff {scheme : Scheme} :
    (∃ t, build scheme = .ok t) ↔ ∀ k, (scheme.labels k).Consistent k := by
  simp only [build_eq_ok_iff, ← Chart.exists_build_iff]
  constructor
  · rintro ⟨t, h⟩ k
    exact ⟨t.chart k, h k⟩
  · intro h
    obtain ⟨edges, he⟩ := h .edge
    obtain ⟨corners, hc⟩ := h .corner
    refine ⟨⟨edges, corners⟩, ?_⟩
    rintro (_ | _)
    · exact he
    · exact hc

/-- Consistent schemes are accepted and no others. The related letters of a letter are its group, and related letters
are those of one group. -/
theorem Lettering.build_ok_iff_consistent (scheme : Scheme) :
    ((∃ t, build scheme = .ok t) ↔ ∀ k, (scheme.labels k).Consistent k) ∧
    ∀ t, build scheme = .ok t → ∀ k,
      (∀ l, ∃ g ∈ (scheme.labels k).groups, (∃ c ∈ g, l.IsWritten c) ∧
        g.map Letter.ofChar? = ((t.chart k).related l).map some) ∧
      Equivalence (fun a b => (t.chart k).areRelated a b = true) ∧
      (∀ a b, (t.chart k).areRelated a b ↔
        ∃ g ∈ (scheme.labels k).groups, (∃ c ∈ g, a.IsWritten c) ∧ ∃ c ∈ g, b.IsWritten c) ∧
      ∀ a, (Finset.univ.filter fun b => (t.chart k).areRelated a b).card = k.size := by
  refine ⟨exists_build_iff, fun t ht k => ?_⟩
  obtain ⟨hk, hr, hc⟩ := Chart.build_eq_ok_iff.mp (build_eq_ok_iff.mp ht k)
  refine ⟨fun l => ?_, hc.areRelated_equivalence, fun a b => hr.areRelated_iff hc, fun a => ?_⟩
  · obtain ⟨g, hg, hm⟩ := hr.exists_group (hc.related_mem l)
    exact ⟨g, hg, (Chart.mem_of_read hm).mp (hc.mem_related l), hm⟩
  · rw [hc.card_related, hk]

theorem Lettering.build_ok_iff_consistent_speffz : (∀ k, (Scheme.speffz.labels k).Consistent k) ∧
    ∃ t, build .speffz = .ok t ∧ ∀ k, ∃ g ∈ (Scheme.speffz.labels k).groups, (∃ c ∈ g, (2 : Letter).IsWritten c) ∧
      g.map Letter.ofChar? = ((t.chart k).related 2).map some := by
  obtain ⟨t, ht, -⟩ := Outcome.exists_ok_of_any (x := build .speffz) (P := fun _ => true) (by decide +kernel)
  obtain ⟨hok, hgroups⟩ := build_ok_iff_consistent .speffz
  exact ⟨hok.mp ⟨t, ht⟩, t, ht, fun k => (hgroups t ht k).1 2⟩
end Blindfold
