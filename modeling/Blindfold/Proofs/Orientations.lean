import Blindfold.Proofs.Signs
import Blindfold.Proofs.Twist

/-!
# Orientations in the reports

What every sequence keeps, said of the letters of the Speffz scheme: corners show corners in the same clockwise
order, the turns of the eight corners add up to a multiple of three, and the letters of the edges are permuted
evenly. So one corner is never twisted, and one edge never flipped, with the others at home:
`Lettering.speffz_orientations`.
-/

namespace Blindfold

namespace Letter

/-- The letters in a text. -/
def ofText (text : String) : List Letter := text.toList.filterMap ofChar?

/-- The letters of each corner, clockwise from the one on `U` or `D`. -/
def clockwise : List (List Letter) := ["aer", "bqn", "cmj", "dif", "ugl", "vkp", "wot", "xsh"].map ofText

/-- The letters on `U` and `D`. -/
def leading : List Letter := ofText "abcduvwx"

end Letter

/-- At which letter of a corner, counted from the first, a letter of `U` or `D` is shown. -/
def Report.turnOf (r : Report) (corner : List Letter) : Nat := (corner.map r.get).findIdx Letter.leading.contains

/-! ## Turns and the twist -/

theorem Sticker.findIdx_around {p : Sticker} (h : p.kind? = some .corner) :
    (p.around .corner).findIdx isHead < 3 ∧ (((p.around .corner).findIdx isHead : Nat) : ZMod 3) = -p.tilt := by
  revert p
  decide +kernel

example : (Sticker.around ⟨.R, 0, 0⟩ .corner).findIdx Sticker.isHead = 2 := by decide +kernel

namespace Rigid

theorem exists_heads : ∃ heads : List Sticker, heads.Nodup ∧ heads.toFinset = cornerHeads ∧
    PieceKind.corner.pieces = heads.map (·.around .corner) :=
  ⟨PieceKind.corner.pieces.filterMap List.head?, by decide +kernel⟩

variable (f : Rigid)

theorem findIdx_lt {piece : List Sticker} (h : piece ∈ PieceKind.corner.pieces) :
    (piece.map f.val).findIdx Sticker.isHead < 3 := by
  obtain ⟨p, hp, rfl⟩ := PieceKind.exists_eq_around h
  rw [map_around f.prop]
  exact (Sticker.findIdx_around ((kind? f.prop p).trans hp)).1

theorem sum_findIdx : (((PieceKind.corner.pieces.map fun piece =>
    (piece.map f.val).findIdx Sticker.isHead).sum : Nat) : ZMod 3) = -twist f := by
  obtain ⟨heads, hn, hf, hp⟩ := exists_heads
  have hstep (p : Sticker) (h : p ∈ heads) :
      ((((p.around .corner).map f.val).findIdx Sticker.isHead : Nat) : ZMod 3) = -(f.val p).tilt := by
    have hk := (mem_cornerHeads.mp (hf ▸ List.mem_toFinset.mpr h)).2
    rw [map_around f.prop]
    exact (Sticker.findIdx_around ((kind? f.prop p).trans hk)).2
  rw [Nat.cast_list_sum, hp, List.map_map, List.map_map]
  calc
    _ = (heads.map fun p => -(f.val p).tilt).sum := congrArg List.sum (List.map_congr_left hstep)
    _ = ∑ p ∈ cornerHeads, -(f.val p).tilt := by rw [← hf, List.sum_toFinset _ hn]
    _ = -twist f := by rw [Finset.sum_neg_distrib, twist]

/-- When all other corners stay, this one comes back to its place. -/
theorem samePiece_of_others {f : Rigid} {p : Sticker} (hp : p.kind? = some .corner)
    (h : ∀ q, q.kind? = some .corner → ¬ p.SamePiece q → f.val q = q) : p.SamePiece (f.val p) := by
  by_contra hs
  have hfix := h _ ((kind? f.prop p).trans hp) hs
  exact hs (.inl (f.val.injective hfix))

end Rigid

/-- An even permutation that moves no letters but two moves none. -/
theorem eq_one_of_sign {σ : Equiv.Perm Letter} {pair : List Letter} (hp : pair.length = 2)
    (h : ∀ l, l ∉ pair → σ l = l) (hσ : Equiv.Perm.sign σ = 1) : σ = 1 := by
  by_contra hne
  have hsub : σ.support ⊆ pair.toFinset := fun l hl =>
    List.mem_toFinset.mpr (by_contra fun hn => Equiv.Perm.mem_support.mp hl (h l hn))
  have hcard : σ.support.card = 2 :=
    le_antisymm ((Finset.card_le_card hsub).trans (hp ▸ pair.toFinset_card_le))
      (Equiv.Perm.two_le_card_support_of_ne_one hne)
  exact absurd ((Equiv.Perm.card_support_eq_two.mp hcard).sign_eq.symm.trans hσ) (by decide)

/-! ## The Speffz letters -/

namespace Lettering

variable {t : Lettering}

theorem speffz_clockwise (ht : speffz = .ok t) :
    Letter.clockwise.map (·.map t.corners.sticker) = PieceKind.corner.pieces ∧
      Letter.leading.contains = Sticker.isHead ∘ t.corners.sticker := by
  obtain ⟨t', ht', h⟩ := Outcome.exists_ok_of_any (x := speffz)
    (P := fun t => Letter.clockwise.map (·.map t.corners.sticker) = PieceKind.corner.pieces ∧
      ∀ l, Letter.leading.contains l = (t.corners.sticker l).isHead) (by decide +kernel)
  obtain rfl := Except.ok.inj (ht.symm.trans ht')
  have h := of_decide_eq_true h
  exact ⟨h.1, funext h.2⟩

end Lettering

namespace Report

variable {t : Lettering} (ht : Lettering.speffz = .ok t) {r : Report} {f : Rigid}
  (hr : ∀ l, t.corners.sticker (r.get l) = f.val (t.corners.sticker l))
include ht hr

omit ht in
theorem map_sticker (corner : List Letter) :
    (corner.map r.get).map t.corners.sticker = (corner.map t.corners.sticker).map f.val := by
  rw [List.map_map, List.map_map]
  exact List.map_congr_left fun l _ => hr l

theorem turnOf_eq (corner : List Letter) :
    r.turnOf corner = ((corner.map t.corners.sticker).map f.val).findIdx Sticker.isHead := by
  rw [turnOf, (Lettering.speffz_clockwise ht).2, ← List.findIdx_map, map_sticker hr]

theorem exists_isRotated {corner : List Letter} (hc : corner ∈ Letter.clockwise) :
    ∃ shown ∈ Letter.clockwise, corner.map r.get ~r shown := by
  obtain ⟨hpieces, -⟩ := Lettering.speffz_clockwise ht
  obtain ⟨source, hs, n, hn⟩ := Rigid.exists_isRotated f.prop (hpieces ▸ List.mem_map_of_mem hc)
  rw [← hpieces] at hs
  obtain ⟨shown, hshown, rfl⟩ := List.mem_map.mp hs
  rw [← map_sticker hr, ← List.map_rotate] at hn
  have hinj := (Lettering.speffz_faithful ht .corner).sticker_injective
  exact ⟨shown, hshown, n, List.map_injective_iff.mpr hinj hn⟩

theorem turnOf_lt {corner : List Letter} (hc : corner ∈ Letter.clockwise) : r.turnOf corner < 3 := by
  rw [turnOf_eq ht hr]
  exact Rigid.findIdx_lt f ((Lettering.speffz_clockwise ht).1 ▸ List.mem_map_of_mem hc)

theorem sum_turnOf : ((Letter.clockwise.map r.turnOf).sum : ZMod 3) = -Rigid.twist f := by
  have hturn := List.map_congr_left (l := Letter.clockwise) fun corner _ => turnOf_eq ht hr corner
  rw [← Rigid.sum_findIdx, ← (Lettering.speffz_clockwise ht).1, List.map_map, hturn]
  rfl

theorem isIdentity_of_others (hf : Rigid.twist f = 0) {corner : List Letter} (hc : corner ∈ Letter.clockwise)
    (h : ∀ l, l ∉ corner → r.get l = l) : r.isIdentity := by
  have hfaithful := Lettering.speffz_faithful ht .corner
  have hpiece : corner.map t.corners.sticker ∈ PieceKind.corner.pieces :=
    (Lettering.speffz_clockwise ht).1 ▸ List.mem_map_of_mem hc
  refine List.all_eq_true.mpr fun l _ => decide_eq_true ?_
  by_cases hl : l ∈ corner
  · have hk := Lettering.speffz_kind?_sticker ht .corner l
    have hothers (q : Sticker) (hq : q.kind? = some .corner) (hn : ¬ (t.corners.sticker l).SamePiece q) :
        f.val q = q := by
      obtain ⟨m, rfl⟩ := Lettering.speffz_exists_sticker_eq ht hq
      have hm : m ∉ corner := fun hm => hn
        ((PieceKind.mem_piece_iff hpiece (List.mem_map_of_mem hl) _).mp (List.mem_map_of_mem hm))
      exact (hr m).symm.trans (congrArg _ (h m hm))
    refine hfaithful.sticker_injective ((hr l).trans ?_)
    exact Rigid.eq_self_of_twist hf hk (Rigid.samePiece_of_others hk hothers) hothers
  · exact h l hl

end Report

namespace Lettering

/-- What no sequence changes about the orientations, in the reports of the Speffz scheme. -/
theorem speffz_orientations : ∃ t, speffz = .ok t ∧ ∀ s : Sequence, ∃ edges corners,
    t.edges.report (Cube.solved.run s) = .ok edges ∧ t.corners.report (Cube.solved.run s) = .ok corners ∧
    (∀ corner ∈ Letter.clockwise, corners.turnOf corner < 3 ∧
      ∃ shown ∈ Letter.clockwise, corner.map corners.get ~r shown) ∧
    (Letter.clockwise.map corners.turnOf).sum % 3 = 0 ∧
    (∃ σ : Equiv.Perm Letter, (∀ l, edges.get l = σ l) ∧ Equiv.Perm.sign σ = 1) ∧
    (∀ corner ∈ Letter.clockwise, (∀ l, l ∉ corner → corners.get l = l) → corners.isIdentity) ∧
    (∀ edge ∈ t.edges.pieces, (∀ l, l ∉ edge → edges.get l = l) → edges.isIdentity) := by
  obtain ⟨t, ht, -⟩ := exists_speffz
  refine ⟨t, ht, fun s => ?_⟩
  have hf := speffz_faithful ht
  obtain ⟨σ, hσ⟩ := (hf .edge).exists_letterPerm s.perm_rigid
  obtain ⟨ρ, hρ⟩ := (hf .corner).exists_letterPerm s.perm_rigid
  have hr (l : Letter) : t.corners.sticker ((Report.ofFn ρ).get l) = s.rigid.val (t.corners.sticker l) := by
    rw [Report.get_ofFn]
    exact hρ l
  have hsign : Equiv.Perm.sign σ = 1 := by
    rw [(hf .edge).sign_letters (f := s.rigid) hσ, (build_checked ht .edge).1, s.signOn_edge]
  refine ⟨.ofFn σ, .ofFn ρ, (hf .edge).report_eq_ofFn hσ, (hf .corner).report_eq_ofFn hρ, fun corner hc => ?_,
    ?_, ⟨σ, Report.get_ofFn σ, hsign⟩, fun corner hc h => ?_, fun edge he h => ?_⟩
  · exact ⟨Report.turnOf_lt ht hr hc, Report.exists_isRotated ht hr hc⟩
  · have hsum := Report.sum_turnOf ht hr
    rw [s.twist_rigid, neg_zero, ZMod.natCast_eq_zero_iff] at hsum
    exact Nat.mod_eq_zero_of_dvd hsum
  · exact Report.isIdentity_of_others ht hr s.twist_rigid hc h
  · have hlen : edge.length = 2 := by
      rw [(hf .edge).length_eq he, (build_checked ht .edge).1]
      rfl
    have hone := eq_one_of_sign hlen (fun l hl => (Report.get_ofFn σ l).symm.trans (h l hl)) hsign
    rw [hone]
    simp [Report.isIdentity, Report.isFixed]

end Lettering
end Blindfold
