import Mathlib.Data.Fintype.List
import Blindfold.Proofs.Parity
import Blindfold.Proofs.Tracking

/-!
# Signs

A sequence permutes the edges, the corners and the centers, each evenly or oddly. A turn of a face changes the
signs of the edges and the corners, a turn of a slice those of the edges and the centers, so that the product of
the three is always one: `Lettering.speffz_signs`. The 24 stickers of the edges are always permuted evenly
(`Sequence.signOn_edge`).
-/

namespace Blindfold

/-- Permutations that correspond along an injection have one sign, when all else stays. -/
theorem sign_eq_sign_of_injective {α β : Type*} [DecidableEq α] [Fintype α] [DecidableEq β] [Fintype β]
    {f : Equiv.Perm α} {g : Equiv.Perm β} (i : α → β) (hi : Function.Injective i)
    (h : ∀ x, i (f x) = g (i x)) (hg : ∀ y, g y ≠ y → ∃ x, i x = y) :
    Equiv.Perm.sign f = Equiv.Perm.sign g := by
  refine Equiv.Perm.sign_bij (fun x _ => i x) (fun x _ _ => h x) (fun _ _ _ _ he => hi he) fun y hy => ?_
  obtain ⟨x, rfl⟩ := hg y hy
  exact ⟨x, fun hx => hy (by rw [← h, hx]), rfl⟩

/-! ## What quarter turns generate -/

/-- What is one for the clockwise turns of faces and slices is one for all sequences. -/
theorem Sequence.hom_rigid_eq_one {M : Type*} [Group M] (φ : Rigid →* M)
    (face : ∀ f, φ (Quarter.slab (.face f) .clockwise).rigid = 1)
    (slice : ∀ s, φ (Quarter.slab (.slice s) .clockwise).rigid = 1) (s : Sequence) : φ s.rigid = 1 := by
  have hslab (s : Slab) (d : Direction) : φ (Quarter.slab s d).rigid = 1 := by
    have h : φ (Quarter.slab s .clockwise).rigid = 1 := by
      cases s with
      | face f => exact face f
      | slice s => exact slice s
    cases d with
    | clockwise => exact h
    | counterclockwise =>
        have hr := (Quarter.slab s .clockwise).rigid_reverse
        exact (congrArg φ hr).trans (by rw [map_inv, h, inv_one])
  have hquarter (q : Quarter) : φ q.rigid = 1 := by
    induction q using Quarter.of_clockwise with
    | face f => exact face f
    | slice s => exact slice s
    | rotation a => rw [a.rigid_rotation, map_mul, map_mul, hslab, hslab, hslab, mul_one, mul_one]
    | reverse q ih => rw [q.rigid_reverse, map_inv, ih, inv_one]
  rw [rigid_eq_prod, map_list_prod, List.map_map]
  exact List.prod_eq_one fun x hx => by
    obtain ⟨q, -, rfl⟩ := List.mem_map.mp hx
    exact hquarter q

/-! ## One kind of stickers alone -/

namespace Rigid

/-- Moves the stickers of one kind, the centers if no kind is given, and leaves all others. -/
def on (k : Option PieceKind) : Rigid →* Rigid := (MonoidHom.toHomPerm {
  toFun (f : Rigid) p := if p.kind? = k then f.val p else p
  map_one' := funext fun p => ite_self p
  map_mul' f g := by
    funext p
    change ite _ _ _ = ite _ _ _
    by_cases h : p.kind? = k
    · have hg : (g.val p).kind? = k := (Rigid.kind? g.prop p).trans h
      simp only [h, hg, ↓reduceIte]
      rfl
    · simp only [h, ↓reduceIte] }).codRestrict Rigid fun f => by
  rw [mem_rigid_iff]
  intro p
  change ite _ _ _ = (ite _ _ _ : Sticker).next
  have hp : p.next.kind? = p.kind? := Rigid.kind? next_mem p
  rw [hp, mem_rigid_iff.mp f.prop, apply_ite Sticker.next]

variable {f : Rigid} {k : Option PieceKind} {p : Sticker}

theorem on_of_kind (h : p.kind? = k) : (on k f).val p = f.val p := if_pos h

theorem on_of_ne (h : p.kind? ≠ k) : (on k f).val p = p := if_neg h

/-- Every rigid permutation is made of one for each kind. -/
theorem on_mul_on_mul_on (f : Rigid) : on (some .edge) f * on (some .corner) f * on none f = f := by
  refine Subtype.ext (Equiv.ext fun p => ?_)
  rw [Subgroup.coe_mul, Subgroup.coe_mul, Equiv.Perm.mul_apply, Equiv.Perm.mul_apply]
  have hf : (f.val p).kind? = p.kind? := Rigid.kind? f.prop p
  rcases hk : p.kind? with _ | _ | _ <;> rw [hk] at hf
  · have hc : (f.val p).kind? ≠ some .corner := by rw [hf]; nofun
    have he : (f.val p).kind? ≠ some .edge := by rw [hf]; nofun
    rw [on_of_kind hk, on_of_ne hc, on_of_ne he]
  · have hn : p.kind? ≠ none := by rw [hk]; nofun
    have hc : p.kind? ≠ some .corner := by rw [hk]; nofun
    rw [on_of_ne hn, on_of_ne hc, on_of_kind hk]
  · have hn : p.kind? ≠ none := by rw [hk]; nofun
    have he : (f.val p).kind? ≠ some .edge := by rw [hf]; nofun
    rw [on_of_ne hn, on_of_kind hk, on_of_ne he]

/-- The edges and corners, taken together, are permuted as the edges are and then as the corners are. -/
theorem parity_eq (f : Rigid) : parity f = parity (on (some .edge) f) * parity (on (some .corner) f) := by
  have h : parity (on none f) = 1 := parity_eq_one fun p hp => on_of_ne hp
  rw [← mul_one (_ * _), ← h, ← map_mul, ← map_mul, on_mul_on_mul_on]

/-- The sign of the permutation of all stickers of one kind. -/
def signOn (k : Option PieceKind) : Rigid →* ℤˣ := Equiv.Perm.sign.comp (Rigid.subtype.comp (on k))

theorem signOn_apply (k : Option PieceKind) (f : Rigid) : signOn k f = Equiv.Perm.sign (on k f).val := by
  rw [signOn, MonoidHom.comp_apply, MonoidHom.comp_apply, Subgroup.subtype_apply]

end Rigid

/-! ## The signs of a sequence -/

theorem Face.on_none_rigid (f : Face) : Rigid.on none (Quarter.slab (.face f) .clockwise).rigid = 1 := by
  refine Subtype.ext (Equiv.ext fun p => ?_)
  revert f p
  decide +kernel

theorem Slice.on_none_rigid (s : Slice) : (Rigid.on none (Quarter.slab (.slice s) .clockwise).rigid).val =
    ((Slab.slice s).ring 1).formPerm := by
  refine Equiv.ext fun p => ?_
  revert s p
  decide +kernel

theorem Slice.signOn_none (s : Slice) : Rigid.signOn none (Quarter.slab (.slice s) .clockwise).rigid = -1 := by
  have hn : ((Slab.slice s).ring 1).Nodup := by revert s; decide
  rw [Rigid.signOn_apply, on_none_rigid, sign_formPerm hn, Slab.length_ring]
  rfl

/-- Pieces and centers together are permuted evenly. -/
theorem Sequence.parity_mul_signOn_none (s : Sequence) : Rigid.parity s.rigid * Rigid.signOn none s.rigid = 1 := by
  refine hom_rigid_eq_one (Rigid.parity * Rigid.signOn none) (fun f => ?_) (fun s => ?_) s
  · rw [MonoidHom.mul_apply, f.parity_rigid, Rigid.signOn_apply, f.on_none_rigid, Subgroup.coe_one, map_one,
      one_mul]
  · rw [MonoidHom.mul_apply, s.parity_rigid, s.signOn_none]
    rfl

/-- A ring of four edges: around a face the stickers on the other faces, around a slice those on one side. -/
def Slab.edgeRing : Slab → List Sticker
  | face f => (face f).ring 1
  | slice s => (slice s).ring 0

/-- The ring of the other stickers of these edges turns along. -/
theorem Slab.on_edge_rigid (s : Slab) : (Rigid.on (some .edge) (Quarter.slab s .clockwise).rigid).val =
    s.edgeRing.formPerm * (Sticker.next * s.edgeRing.formPerm * Sticker.next⁻¹) := by
  refine Equiv.ext fun p => ?_
  rcases s with f | s
  · revert f p
    decide +kernel
  · revert s p
    decide +kernel

example : (Rigid.on (some .edge) (Quarter.slab (.slice .M) .clockwise).rigid).val ⟨.F, 0, 1⟩ = ⟨.U, 0, 1⟩ := by
  decide +kernel

theorem Slab.signOn_edge (s : Slab) : Rigid.signOn (some .edge) (Quarter.slab s .clockwise).rigid = 1 := by
  rw [Rigid.signOn_apply, on_edge_rigid, map_mul, map_mul, map_mul, map_inv, mul_inv_cancel_comm,
    Int.units_mul_self]

theorem Sequence.signOn_edge (s : Sequence) : Rigid.signOn (some .edge) s.rigid = 1 :=
  hom_rigid_eq_one _ (fun f => (Slab.face f).signOn_edge) (fun s => (Slab.slice s).signOn_edge) s

/-! ## The signs that reports show -/

namespace Chart

/-- Where the letters of a piece are, the report shows letters of the piece that `π` says. -/
def ShowsPieces (t : Chart) (r : Report) (π : Equiv.Perm {piece // piece ∈ t.pieces}) : Prop :=
  ∀ piece, ∀ l ∈ piece.val, r.get l ∈ (π piece).val

theorem ShowsPieces.eq_one {t : Chart} (ht : t.Checked) {r : Report} {π : Equiv.Perm {piece // piece ∈ t.pieces}}
    (h : t.ShowsPieces r π) (hr : r.isIdentity) : π = 1 := by
  refine Equiv.ext fun piece => Subtype.ext ?_
  obtain ⟨l, hl⟩ := ht.exists_mem piece.prop
  have hshown := h piece l hl
  rw [of_decide_eq_true (List.all_eq_true.mp hr l (List.mem_finRange l))] at hshown
  exact (ht.eq_related (π piece).prop hshown).trans (ht.eq_related piece.prop hl).symm

namespace Faithful

variable {t : Chart} (ht : t.Faithful) {f : Rigid} {σ : Equiv.Perm Letter}
  (hσ : ∀ l, t.sticker (σ l) = f.val (t.sticker l))
include ht hσ

theorem sign_letters : Equiv.Perm.sign σ = Rigid.signOn (some t.kind) f := by
  rw [Rigid.signOn_apply]
  refine sign_eq_sign_of_injective t.sticker ht.sticker_injective (fun l => ?_) fun p hp => ?_
  · rw [hσ, Rigid.on_of_kind (ht.kind?_sticker l)]
  · exact ht.exists_sticker_eq (by_contra fun h => hp (Rigid.on_of_ne h))

theorem exists_piecePerm : ∃ π : Equiv.Perm {piece // piece ∈ t.pieces}, t.ShowsPieces (.ofFn σ) π := by
  choose l hrelated using fun piece : {piece // piece ∈ t.pieces} => ht.exists_eq_related piece.prop
  let g (piece : {piece // piece ∈ t.pieces}) : {piece // piece ∈ t.pieces} :=
    ⟨t.related (σ (l piece)), ht.related_mem _⟩
  have hi : Function.Injective g := by
    intro piece other he
    have hg : t.related (σ (l piece)) = t.related (σ (l other)) := Subtype.ext_iff.mp he
    have hm : σ (l other) ∈ t.related (σ (l piece)) := hg ▸ ht.mem_related _
    rw [ht.mem_related_letterPerm f.prop hσ, ← hrelated] at hm
    exact Subtype.ext ((ht.eq_related piece.prop hm).trans (hrelated other).symm)
  refine ⟨.ofBijective g (Finite.injective_iff_bijective.mp hi), fun piece m hm => ?_⟩
  rw [Report.get_ofFn]
  exact (ht.mem_related_letterPerm f.prop hσ).mpr (hrelated piece ▸ hm)

theorem sign_pieces {π : Equiv.Perm {piece // piece ∈ t.pieces}} (hπ : t.ShowsPieces (.ofFn σ) π) :
    Equiv.Perm.sign π = Rigid.parity (Rigid.on (some t.kind) f) := by
  choose l hrelated using fun piece : {piece // piece ∈ t.pieces} => ht.exists_eq_related piece.prop
  have hhead {piece : {piece // piece ∈ t.pieces}} {m : Letter} (hm : m ∈ piece.val) :
      (t.sticker m).head = (t.sticker (l piece)).head :=
    (ht.mem_related_iff.mp (hrelated piece ▸ hm)).head_eq
  have hkind (m : Letter) : (t.sticker m).head.kind? = some t.kind := by
    rw [Sticker.kind?_head, ht.kind?_sticker]
  have hishead (m : Letter) : (t.sticker m).head.isHead :=
    Sticker.isHead_head (ht.kind?_sticker m ▸ Option.some_ne_none _)
  rw [Rigid.parity, MonoidHom.comp_apply]
  refine sign_eq_sign_of_injective (fun piece => (t.sticker (l piece)).head) (fun piece other he => ?_)
    (fun piece => ?_) fun p hp => ?_
  · have hm := ht.mem_related_iff.mpr (Sticker.samePiece_of_head_eq he)
    rw [← hrelated] at hm
    exact Subtype.ext ((ht.eq_related piece.prop hm).trans (hrelated other).symm)
  · have hs := (Rigid.samePiece f.prop (t.sticker (l piece)).samePiece_head).head_eq
    have hm := hπ piece (l piece) (hrelated piece ▸ ht.mem_related _)
    rw [Report.get_ofFn] at hm
    rw [Rigid.heads_apply, if_pos (hishead _), Rigid.on_of_kind (hkind _), hs, ← hσ, hhead hm]
  · rw [Rigid.heads_apply] at hp
    by_cases hh : p.isHead
    · have hk : p.kind? = some t.kind := by
        by_contra hk
        exact hp (by rw [if_pos hh, Rigid.on_of_ne hk, Sticker.head_of_isHead hh])
      obtain ⟨m, rfl⟩ := ht.exists_sticker_eq hk
      exact ⟨⟨t.related m, ht.related_mem m⟩, (hhead (ht.mem_related m)).symm.trans (Sticker.head_of_isHead hh)⟩
    · exact absurd (if_neg hh) hp

end Faithful
end Chart

theorem Rigid.exists_centerPerm (f : Rigid) : ∃ κ : Equiv.Perm Face,
    (∀ g, f.val (.center g) = .center (κ g)) ∧ Equiv.Perm.sign κ = signOn none f := by
  refine ⟨centers f, apply_centers f, ?_⟩
  rw [signOn_apply]
  refine sign_eq_sign_of_injective Sticker.center Sticker.center_injective (fun g => ?_) fun p hp => ?_
  · rw [on_of_kind ((Sticker.kind?_eq_none_iff _).mpr rfl)]
    exact (apply_centers f g).symm
  · have hk : p.kind? = none := by_contra fun h => hp (on_of_ne h)
    exact ⟨p.face, ((Sticker.kind?_eq_none_iff p).mp hk).symm⟩

namespace Lettering

/-- The signs of the permutations of the edges, of the corners and of the centers multiply to one. With the
centers and one kind of pieces at home, the pieces of the other kind are permuted evenly, so not two of them
exchanged. -/
theorem speffz_signs : ∃ t, speffz = .ok t ∧ ∀ s : Sequence, ∃ (r : PieceKind → Report)
    (π : (k : PieceKind) → Equiv.Perm {piece // piece ∈ (t.chart k).pieces}) (κ : Equiv.Perm Face),
    (∀ k, (t.chart k).report (Cube.solved.run s) = .ok (r k) ∧ (t.chart k).ShowsPieces (r k) (π k)) ∧
    (∀ f, (Cube.solved.run s).center f = (κ f).solvedColor) ∧
    Equiv.Perm.sign (π .edge) * Equiv.Perm.sign (π .corner) * Equiv.Perm.sign κ = 1 ∧
    ((∀ f, (Cube.solved.run s).center f = f.solvedColor) → ∀ k, (r k.other).isIdentity →
      Equiv.Perm.sign (π k) = 1 ∧ ¬ (π k).IsSwap) := by
  obtain ⟨t, ht, -⟩ := exists_speffz
  refine ⟨t, ht, fun s => ?_⟩
  have hf := speffz_faithful ht
  choose σ hσ using fun k => (hf k).exists_letterPerm s.perm_rigid
  choose π hπ using fun k => (hf k).exists_piecePerm (f := s.rigid) (hσ k)
  have hsign (k : PieceKind) : Equiv.Perm.sign (π k) = Rigid.parity (Rigid.on (some k) s.rigid) := by
    rw [(hf k).sign_pieces (f := s.rigid) (hσ k) (hπ k), (build_checked ht k).1]
  obtain ⟨κ, hκ, hκsign⟩ := Rigid.exists_centerPerm s.rigid
  have hcolor (f : Face) : (Cube.solved.run s).center f = (κ f).solvedColor := by
    have hs : Sequence.perm s (.center f) = .center (κ f) := hκ f
    rw [Cube.center, Cube.get_run, hs, Cube.get_solved]
    rfl
  have hprod : Equiv.Perm.sign (π .edge) * Equiv.Perm.sign (π .corner) * Equiv.Perm.sign κ = 1 := by
    rw [hsign, hsign, hκsign, ← Rigid.parity_eq, s.parity_mul_signOn_none]
  refine ⟨fun k => .ofFn (σ k), π, κ, fun k => ⟨(hf k).report_eq_ofFn (hσ k), hπ k⟩, hcolor, hprod,
    fun hhome k hr => ?_⟩
  have hκone : κ = 1 := Equiv.ext fun f => Face.solvedColor_injective ((hcolor f).symm.trans (hhome f))
  have hother : π k.other = 1 := (hπ k.other).eq_one (hf k.other).toChecked hr
  have hone : Equiv.Perm.sign (π k) = 1 := by
    cases k with
    | edge => simpa [hκone, show π .corner = 1 from hother] using hprod
    | corner => simpa [hκone, show π .edge = 1 from hother] using hprod
  exact ⟨hone, fun hswap => absurd (hswap.sign_eq.symm.trans hone) (by decide)⟩

end Lettering
end Blindfold
