import Mathlib.Data.List.FinRange
import Mathlib.Data.Fintype.EquivFin
import Blindfold.Cube.Wiring
import Blindfold.Proofs.Charts
import Blindfold.Lettering.Report

/-!
# What a report says

A report of a checked chart exists exactly when every group shows the colors of a group, and then it names
the letters of that group color by color: `Checked.report_eq_ok_iff`, and for the charts of any accepted scheme
`Lettering.report_reads_colors`. It lists every letter once exactly when no two groups show the same colors:
`Checked.isPermutation_iff`.
-/

namespace Blindfold

namespace Report

/-- The report with given letters. -/
def ofFn (f : Letter → Letter) : Report := ⟨Vector.ofFn f⟩

@[simp]
theorem get_ofFn (f : Letter → Letter) (l : Letter) : (ofFn f).get l = f l := by
  simp [get, ofFn]

theorem isIdentity_ofFn_id : (ofFn id).isIdentity := by
  simp [isIdentity, isFixed]

theorem ext_get {r s : Report} (h : ∀ l, r.get l = s.get l) : r = s := by
  obtain ⟨r⟩ := r
  obtain ⟨s⟩ := s
  congr 1
  ext i hi
  exact congrArg Fin.val (h ⟨i, hi⟩)

/-- Every letter occurs exactly once. -/
def IsPermutation (r : Report) : Prop := ∀ l, r.letters.toList.count l = 1

instance (r : Report) : Decidable r.IsPermutation := inferInstanceAs (Decidable (∀ _, _ = _))

theorem isPermutation_iff_injective {r : Report} : r.IsPermutation ↔ Function.Injective r.get := by
  obtain ⟨f, rfl⟩ : ∃ f, r = ofFn f := ⟨r.get, ext_get fun l => (get_ofFn r.get l).symm⟩
  have hl : (ofFn f).letters.toList = List.ofFn f := Vector.toList_ofFn
  have hf : (ofFn f).get = f := funext (get_ofFn f)
  rw [IsPermutation, hl, hf, ← List.nodup_ofFn]
  constructor
  · intro h
    exact List.nodup_iff_count_le_one.mpr fun l => (h l).le
  · intro h l
    refine List.count_eq_one_of_mem h ?_
    obtain ⟨m, rfl⟩ := Finite.injective_iff_surjective.mp (List.nodup_ofFn.mp h) l
    exact List.mem_ofFn.mpr ⟨m, rfl⟩

end Report

theorem lookup_map {α β γ : Type} [BEq β] [LawfulBEq β] {f : α → β} {g : α → γ} {xs : List α}
    (hn : (xs.map f).Nodup) {x : α} (hx : x ∈ xs) :
    (xs.map fun x => (f x, g x)).lookup (f x) = some (g x) := by
  refine (lookup_eq_some_iff_mem ?_).mpr (List.mem_map_of_mem hx)
  rwa [List.map_map]

namespace Chart

variable {t : Chart} {c : Cube} {f : Letter → Letter} {piece shown : List Letter}

/-- The colors now on a group are the solved colors of the group `shown`, and `f` names them. -/
structure Shows (t : Chart) (c : Cube) (f : Letter → Letter) (piece shown : List Letter) : Prop where
  colors (x : Color) : x ∈ shown.map t.solvedColor ↔ x ∈ piece.map (t.color c)
  mem {l : Letter} : l ∈ piece → f l ∈ shown
  color {l : Letter} : l ∈ piece → t.solvedColor (f l) = t.color c l

theorem map_identity (t : Chart) (piece : List Letter) :
    (t.identity piece).map (·.1) = piece.map t.solvedColor := by
  simp [identity]

/-- The piece that a group is taken for: the first with the colors that are now on the group. -/
def identified? (t : Chart) (c : Cube) (piece : List Letter) : Option (List (Color × Letter)) :=
  (t.pieces.map t.identity).find? fun identity => Color.sameSet (identity.map (·.1)) (piece.map (t.color c))

theorem exists_of_identified? {identity : List (Color × Letter)} (h : t.identified? c piece = some identity) :
    ∃ shown ∈ t.pieces, identity = t.identity shown ∧
      ∀ x, x ∈ shown.map t.solvedColor ↔ x ∈ piece.map (t.color c) := by
  have hc := List.find?_some h
  obtain ⟨shown, hs, rfl⟩ := List.mem_map.mp (List.mem_of_find?_eq_some h)
  rw [Color.sameSet_iff, map_identity] at hc
  exact ⟨shown, hs, rfl, hc⟩

/-- The piece that a group is taken for has every color of the group. -/
theorem exists_lookup_of_identified? {identity : List (Color × Letter)} (h : t.identified? c piece = some identity)
    {l : Letter} (hl : l ∈ piece) : ∃ m, identity.lookup (t.color c l) = some m := by
  obtain ⟨shown, -, rfl, hc⟩ := exists_of_identified? h
  rw [← Option.isSome_iff_exists, List.lookup_isSome_iff]
  have hm : t.color c l ∈ (t.identity shown).map (·.1) := by
    rw [map_identity, hc]
    exact List.mem_map_of_mem hl
  obtain ⟨e, he, h⟩ := List.mem_map.mp hm
  exact ⟨e, he, beq_iff_eq.mpr h.symm⟩

theorem reportPiece_eq (t : Chart) (c : Cube) (piece : List Letter) :
    t.reportPiece (t.pieces.map t.identity) c piece =
      match t.identified? c piece with
      | none => .error (.unknownPiece t.kind (Letter.textOf piece))
      | some identity => piece.mapM fun l =>
        match identity.lookup (t.color c l) with
        | some shown => .ok (l, shown)
        | none => .error (.unknownPiece t.kind (Letter.textOf piece)) := rfl

theorem reportPiece_eq_error_iff {e : LabelError} :
    t.reportPiece (t.pieces.map t.identity) c piece = .error e ↔
      t.identified? c piece = none ∧ e = .unknownPiece t.kind (Letter.textOf piece) := by
  rw [reportPiece_eq]
  cases h : t.identified? c piece with
  | none => simp [eq_comm]
  | some identity =>
      refine iff_of_false (fun he => ?_) nofun
      obtain ⟨before, l, after, rfl, -, he⟩ := Outcome.mapM_eq_error_iff.mp he
      obtain ⟨m, hm⟩ := exists_lookup_of_identified? h (List.mem_append_right before List.mem_cons_self)
      simp [hm] at he

theorem exists_shown {es : List (Letter × Letter)}
    (h : t.reportPiece (t.pieces.map t.identity) c piece = .ok es) :
    ∃ shown ∈ t.pieces, ∀ x, x ∈ shown.map t.solvedColor ↔ x ∈ piece.map (t.color c) := by
  cases hi : t.identified? c piece with
  | none => simp [reportPiece_eq_error_iff.mpr ⟨hi, rfl⟩] at h
  | some identity =>
      obtain ⟨shown, hs, -, hc⟩ := exists_of_identified? hi
      exact ⟨shown, hs, hc⟩

/-- A report fails only where the colors on a group are those of no piece. -/
theorem exists_piece_of_report {e : LabelError} (h : t.report c = .error e) :
    ∃ piece ∈ t.pieces, t.identified? c piece = none ∧ e = .unknownPiece t.kind (Letter.textOf piece) := by
  rcases Outcome.bind_eq_error_iff.mp h with h | ⟨_, _, h⟩
  · obtain ⟨before, piece, after, hp, -, h⟩ := Outcome.mapM_eq_error_iff.mp h
    exact ⟨piece, hp ▸ List.mem_append_right _ List.mem_cons_self, reportPiece_eq_error_iff.mp h⟩
  · cases h

namespace Checked

variable (ht : t.Checked)
include ht

theorem identified?_eq (hs : shown ∈ t.pieces) (h : t.Shows c f piece shown) :
    t.identified? c piece = some (t.identity shown) := by
  cases hi : t.identified? c piece with
  | none =>
      have hn := List.find?_eq_none.mp hi _ (List.mem_map_of_mem hs)
      rw [map_identity, Color.sameSet_iff] at hn
      exact absurd h.colors hn
  | some identity =>
      obtain ⟨other, ho, rfl, hc⟩ := exists_of_identified? hi
      rw [ht.eq_of_colors hs ho fun x => (h.colors x).trans (hc x).symm]

theorem reportPiece_of_shows (hs : shown ∈ t.pieces) (h : t.Shows c f piece shown) :
    t.reportPiece (t.pieces.map t.identity) c piece = .ok (piece.map fun l => (l, f l)) := by
  rw [reportPiece_eq, ht.identified?_eq hs h]
  refine Outcome.mapM_eq_map fun l hl => ?_
  have hc : t.color c l = t.solvedColor (f l) := (h.color hl).symm
  rw [hc, identity, lookup_map (ht.nodup_colors hs) (h.mem hl)]

theorem report_eq (h : ∀ piece ∈ t.pieces, ∃ shown ∈ t.pieces, t.Shows c f piece shown) :
    t.report c = .ok (.ofFn f) := by
  have hm : t.pieces.mapM (t.reportPiece (t.pieces.map t.identity) c) =
      .ok (t.pieces.map fun piece => piece.map fun l => (l, f l)) :=
    Outcome.mapM_eq_map fun piece hp =>
      let ⟨_, hs, h⟩ := h piece hp
      ht.reportPiece_of_shows hs h
  unfold report
  dsimp only
  rw [hm]
  refine congrArg Except.ok (Report.ext_get fun l => ?_)
  have hn : (t.pieces.flatten.map id).Nodup := by rw [List.map_id]; exact ht.nodup
  have hl : (t.pieces.flatten.map fun l => (l, f l)).lookup l = some (f l) := lookup_map hn (ht.mem_flatten l)
  rw [Report.get_ofEntries, Report.get_ofFn, ← List.map_flatten, hl, Option.getD_some]

/-- The letters can be named one by one when every group shows the colors of some group. -/
theorem exists_shows (h : ∀ piece ∈ t.pieces, ∃ shown ∈ t.pieces,
      ∀ x, x ∈ shown.map t.solvedColor ↔ x ∈ piece.map (t.color c)) :
    ∃ f, ∀ piece ∈ t.pieces, ∃ shown ∈ t.pieces, t.Shows c f piece shown := by
  choose shown hs hc using h
  have hm (l : Letter) : ∃ m ∈ shown (t.related l) (ht.related_mem l), t.solvedColor m = t.color c l :=
    List.mem_map.mp ((hc _ _ _).mpr (List.mem_map_of_mem (ht.mem_related l)))
  choose f hf hcol using hm
  refine ⟨f, fun piece hp => ⟨shown piece hp, hs piece hp, hc piece hp, fun hl => ?_, fun _ => hcol _⟩⟩
  obtain rfl := ht.eq_related hp hl
  exact hf _

theorem report_eq_ok_iff {r : Report} :
    t.report c = .ok r ↔ ∀ piece ∈ t.pieces, ∃ shown ∈ t.pieces, t.Shows c r.get piece shown := by
  constructor
  · intro h
    have hp : ∀ piece ∈ t.pieces, ∃ shown ∈ t.pieces,
        ∀ x, x ∈ shown.map t.solvedColor ↔ x ∈ piece.map (t.color c) := by
      intro piece hp
      obtain ⟨entries, hm, -⟩ := Outcome.bind_eq_ok_iff.mp h
      obtain ⟨es, he⟩ := Outcome.exists_ok_of_mapM hm hp
      exact exists_shown he
    obtain ⟨f, hf⟩ := ht.exists_shows hp
    have hr : r = .ofFn f := Except.ok.inj (h.symm.trans (ht.report_eq hf))
    have hget : r.get = f := by
      rw [hr]
      exact funext (Report.get_ofFn f)
    rw [hget]
    exact hf
  · intro h
    rw [ht.report_eq h]
    exact congrArg _ (Report.ext_get fun l => Report.get_ofFn _ l)

theorem nodup_shown (hp : piece ∈ t.pieces) (hs : shown ∈ t.pieces) (h : t.Shows c f piece shown) :
    (piece.map (t.color c)).Nodup := by
  have hn := ht.nodup_colors hs
  have hsub : (shown.map t.solvedColor).Subperm (piece.map (t.color c)) :=
    List.subperm_of_subset hn fun x hx => (h.colors x).mp hx
  have hlen : (piece.map (t.color c)).length ≤ (shown.map t.solvedColor).length := by
    rw [List.length_map, List.length_map, ht.length_eq hp, ht.length_eq hs]
  exact (hsub.perm_of_length_le hlen).nodup hn

/-- In a group every letter of the piece shown is named once. -/
theorem bijOn_shown (hp : piece ∈ t.pieces) (hs : shown ∈ t.pieces) (h : t.Shows c f piece shown) :
    Set.BijOn f {l | l ∈ piece} {l | l ∈ shown} := by
  refine ⟨fun l hl => h.mem hl, fun l hl m hm he => ?_, fun m hm => ?_⟩
  · have hcol : t.color c l = t.color c m := by rw [← h.color hl, ← h.color hm, he]
    exact List.inj_on_of_nodup_map (ht.nodup_shown hp hs h) hl hm hcol
  · obtain ⟨l, hl, hcol⟩ := List.mem_map.mp ((h.colors _).mp (List.mem_map_of_mem hm))
    have he : t.solvedColor (f l) = t.solvedColor m := (h.color hl).trans hcol
    exact ⟨l, hl, List.inj_on_of_nodup_map (ht.nodup_colors hs) (h.mem hl) hm he⟩

theorem report_solved : t.report .solved = .ok (.ofFn id) :=
  ht.report_eq fun piece hp => ⟨piece, hp, fun _ => Iff.rfl, id, fun _ => rfl⟩

theorem exists_report_iff : (∃ r, t.report c = .ok r) ↔ ∀ piece ∈ t.pieces, ∃ shown ∈ t.pieces,
    ∀ x, x ∈ shown.map t.solvedColor ↔ x ∈ piece.map (t.color c) := by
  constructor
  · rintro ⟨r, h⟩ piece hp
    obtain ⟨shown, hs, h⟩ := ht.report_eq_ok_iff.mp h piece hp
    exact ⟨shown, hs, h.colors⟩
  · intro h
    obtain ⟨f, hf⟩ := ht.exists_shows h
    exact ⟨_, ht.report_eq hf⟩

theorem pieces_nodup : t.pieces.Nodup := by
  refine ht.apart.imp fun {piece other} h he => h ?_
  rw [he, Color.sameSet_iff]
  exact fun _ => Iff.rfl

theorem apart_of_injective {r : Report} (h : t.report c = .ok r) (hi : Function.Injective r.get) :
    t.pieces.Pairwise fun piece other =>
      ¬ Color.sameSet (piece.map (t.color c)) (other.map (t.color c)) := by
  rw [ht.report_eq_ok_iff] at h
  refine ht.pieces_nodup.pairwise_of_forall_ne fun piece hp other ho hne hc => hne ?_
  rw [Color.sameSet_iff] at hc
  obtain ⟨shown, hs, h₁⟩ := h piece hp
  obtain ⟨shown', hs', h₂⟩ := h other ho
  obtain rfl := ht.eq_of_colors hs hs' fun x => (h₁.colors x).trans ((hc x).trans (h₂.colors x).symm)
  -- A color that both groups show is named by one letter in both.
  obtain ⟨l, hl⟩ := ht.exists_mem hp
  obtain ⟨m, hm, hcol⟩ := List.mem_map.mp ((hc _).mp (List.mem_map_of_mem hl))
  have he : t.solvedColor (r.get m) = t.solvedColor (r.get l) := by
    rw [h₂.color hm, h₁.color hl, hcol]
  obtain rfl := hi (List.inj_on_of_nodup_map (ht.nodup_colors hs) (h₂.mem hm) (h₁.mem hl) he)
  rw [ht.eq_related hp hl, ht.eq_related ho hm]

theorem injective_of_apart {r : Report} (h : t.report c = .ok r)
    (hn : t.pieces.Pairwise fun piece other =>
      ¬ Color.sameSet (piece.map (t.color c)) (other.map (t.color c))) :
    Function.Injective r.get := by
  rw [ht.report_eq_ok_iff] at h
  intro l m he
  obtain ⟨shown, hs, h₁⟩ := h _ (ht.related_mem l)
  obtain ⟨shown', hs', h₂⟩ := h _ (ht.related_mem m)
  have hl := h₁.mem (ht.mem_related l)
  have hm := h₂.mem (ht.mem_related m)
  obtain rfl : shown = shown' := by rw [ht.eq_related hs hl, ht.eq_related hs' hm, he]
  -- Both groups show this one piece, so they are one group, and in it the colors differ.
  have hg : t.related l = t.related m := by
    have : Std.Symm fun p q : List Letter => ¬ Color.sameSet (p.map (t.color c)) (q.map (t.color c)) :=
      ⟨fun _ _ h => Color.sameSet_comm ▸ h⟩
    by_contra hne
    exact hn.forall (ht.related_mem l) (ht.related_mem m) hne
      (Color.sameSet_iff.mpr fun x => (h₁.colors x).symm.trans (h₂.colors x))
  have hcol : t.color c l = t.color c m := by
    rw [← h₁.color (ht.mem_related l), ← h₂.color (ht.mem_related m), he]
  have hlm : m ∈ t.related l := hg ▸ ht.mem_related m
  exact List.inj_on_of_nodup_map (ht.nodup_shown (ht.related_mem l) hs h₁) (ht.mem_related l) hlm hcol

theorem isPermutation_iff {r : Report} (h : t.report c = .ok r) :
    r.IsPermutation ↔ t.pieces.Pairwise fun piece other =>
      ¬ Color.sameSet (piece.map (t.color c)) (other.map (t.color c)) := by
  rw [Report.isPermutation_iff_injective]
  exact ⟨ht.apart_of_injective h, ht.injective_of_apart h⟩

end Checked
end Chart

/-- A report exists whenever every group shows the colors of some group, on any cube. It then takes the letters of
each group to those of one group, by color. It fails only where the colors of a group are those of no piece, and when
they are those of a piece none is missing. -/
theorem Lettering.report_reads_colors {scheme : Scheme} {t : Lettering} (ht : build scheme = .ok t) (k : PieceKind)
    (c : Cube) :
    ((∃ r, (t.chart k).report c = .ok r) ↔ ∀ piece ∈ (t.chart k).pieces, ∃ shown ∈ (t.chart k).pieces,
      ∀ x, x ∈ shown.map (t.chart k).solvedColor ↔ x ∈ piece.map ((t.chart k).color c)) ∧
    (∀ r, (t.chart k).report c = .ok r →
      (∀ piece ∈ (t.chart k).pieces, ∃ shown ∈ (t.chart k).pieces,
        Set.BijOn r.get {l | l ∈ piece} {l | l ∈ shown}) ∧
      ∀ l, (t.chart k).color c l = (t.chart k).solvedColor (r.get l)) ∧
    (∀ e, (t.chart k).report c = .error e → ∃ piece ∈ (t.chart k).pieces,
      (t.chart k).identified? c piece = none ∧ e = .unknownPiece k (Letter.textOf piece)) ∧
    (∀ piece identity, (t.chart k).identified? c piece = some identity →
      ∀ l ∈ piece, ∃ m, identity.lookup ((t.chart k).color c l) = some m) ∧
    ∃ r, (t.chart k).report .solved = .ok r ∧ r.isIdentity := by
  obtain ⟨hk, hc⟩ := build_checked ht k
  refine ⟨hc.exists_report_iff, fun r hr => ⟨fun piece hp => ?_, fun l => ?_⟩, fun e he => ?_,
    fun _ _ h _ => Chart.exists_lookup_of_identified? h, ⟨_, hc.report_solved, Report.isIdentity_ofFn_id⟩⟩
  · obtain ⟨shown, hs, h⟩ := hc.report_eq_ok_iff.mp hr piece hp
    exact ⟨shown, hs, hc.bijOn_shown hp hs h⟩
  · obtain ⟨shown, -, h⟩ := hc.report_eq_ok_iff.mp hr _ (hc.related_mem l)
    exact (h.color (hc.mem_related l)).symm
  · obtain ⟨piece, hp, hi, he⟩ := Chart.exists_piece_of_report he
    exact ⟨piece, hp, hi, hk ▸ he⟩

/-- One corner turned in its place, which no moves do. -/
theorem Lettering.report_reads_colors_turned_corner : ∃ t r, build .speffz = .ok t ∧
    t.corners.report (Cube.solved.rewire (.ofCycle [⟨.U, 2, 2⟩, ⟨.R, 0, 0⟩, ⟨.F, 0, 2⟩])) = .ok r ∧ r.get 2 = 12 ∧
    ∃ shown ∈ t.corners.pieces, Set.BijOn r.get {l | l ∈ t.corners.related 2} {l | l ∈ shown} := by
  obtain ⟨t, ht, h⟩ := Outcome.exists_ok_of_any (x := build .speffz)
    (P := fun t => (t.corners.report (Cube.solved.rewire
      (.ofCycle [⟨.U, 2, 2⟩, ⟨.R, 0, 0⟩, ⟨.F, 0, 2⟩]))).toOption.any fun r => r.get 2 = 12) (by decide +kernel)
  obtain ⟨r, hr, hget⟩ := Outcome.exists_ok_of_any h
  obtain ⟨-, hshown, -⟩ := report_reads_colors ht .corner
    (Cube.solved.rewire (.ofCycle [⟨.U, 2, 2⟩, ⟨.R, 0, 0⟩, ⟨.F, 0, 2⟩]))
  exact ⟨t, r, ht, hr, of_decide_eq_true hget, (hshown r hr).1 _ ((build_checked ht .corner).2.related_mem 2)⟩

end Blindfold
