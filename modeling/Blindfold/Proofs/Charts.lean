import Mathlib.Data.List.Count
import Mathlib.Data.List.Nodup
import Mathlib.Data.List.Pairwise
import Mathlib.Data.Set.List
import Blindfold.Proofs.Outcome
import Blindfold.Lettering.Chart

/-!
# What the checks of a scheme guarantee

`Chart.build` makes the chart that says what the scheme says, and it does so exactly when that chart has every letter
in one group, groups of the right size, and groups that differ in the set of their solved colors:
`Chart.build_eq_ok_iff`.
-/

namespace Blindfold

theorem Color.sameSet_iff {xs ys : List Color} : sameSet xs ys = true ↔ ∀ c, c ∈ xs ↔ c ∈ ys := by
  simp only [sameSet, Bool.and_eq_true, List.all_eq_true, List.contains_iff_mem]
  exact ⟨fun h c => ⟨h.1 c, h.2 c⟩, fun h => ⟨fun c => (h c).mp, fun c => (h c).mpr⟩⟩

theorem Color.sameSet_comm {xs ys : List Color} : sameSet xs ys = sameSet ys xs := by
  rw [Bool.eq_iff_iff, sameSet_iff, sameSet_iff]
  exact ⟨fun h c => (h c).symm, fun h c => (h c).symm⟩

namespace Letter

/-- The character is the letter, in either case. -/
def IsWritten (l : Letter) (c : Char) : Prop := c.toLower = l.toChar

instance (l : Letter) (c : Char) : Decidable (l.IsWritten c) := inferInstanceAs (Decidable (_ = _))

theorem toNat_toChar (l : Letter) : l.toChar.toNat = 97 + l.val := by
  revert l
  decide

theorem ofChar?_eq_some_iff {c : Char} {l : Letter} : ofChar? c = some l ↔ l.IsWritten c := by
  simp only [ofChar?, IsWritten]
  constructor
  · intro h
    split at h
    · rename_i hn
      obtain rfl := Option.some.inj h
      rw [toChar, Nat.add_sub_cancel' hn.1, Char.ofNat_toNat]
    · cases h
  · intro h
    have hn : c.toLower.toNat = 97 + l.val := by rw [h, toNat_toChar]
    have hl := l.isLt
    rw [dif_pos ⟨by omega, by omega⟩]
    exact congrArg some (Fin.ext (by simp only [hn]; omega))

theorem IsWritten.unique {l m : Letter} {c : Char} (hl : l.IsWritten c) (hm : m.IsWritten c) : l = m :=
  Option.some.inj ((ofChar?_eq_some_iff.mpr hl).symm.trans (ofChar?_eq_some_iff.mpr hm))

theorem ofChar_eq_ok_iff {c : Char} {l : Letter} : ofChar c = .ok l ↔ ofChar? c = some l := by
  unfold ofChar
  cases ofChar? c <;> simp

theorem ext_entry {α : Type} {v w : Vector α 24} (h : ∀ l, entry v l = entry w l) : v = w := by
  ext i hi
  exact h ⟨i, hi⟩

theorem tabulate_eq_ok_iff {α : Type} {f : Letter → Option α} {v : Vector α 24} :
    tabulate f = .ok v ↔ ∀ l, f l = some (entry v l) := by
  unfold tabulate
  constructor
  · intro h l
    split at h
    · cases h
    · obtain rfl := Except.ok.inj h
      simp
  · intro h
    split
    · rename_i hl
      have hnone := List.find?_some hl
      simp [h] at hnone
    · exact congrArg Except.ok (ext_entry fun l => by simp [h])

theorem firstRepeat?_eq_none_iff {seen ls : List Letter} :
    firstRepeat? seen ls = none ↔ ls.Nodup ∧ ∀ l ∈ ls, l ∉ seen := by
  induction ls generalizing seen with
  | nil => simp [firstRepeat?]
  | cons l ls ih =>
      by_cases hl : l ∈ seen
      · simp [firstRepeat?, hl]
      · simp only [firstRepeat?, hl, ↓reduceIte, ih, List.nodup_cons, List.mem_cons]
        constructor
        · rintro ⟨hn, h⟩
          refine ⟨⟨fun hm => h l hm (.inl rfl), hn⟩, ?_⟩
          rintro m (rfl | hm)
          · exact hl
          · exact fun hs => h m hm (.inr hs)
        · rintro ⟨⟨hm, hn⟩, h⟩
          refine ⟨hn, ?_⟩
          rintro m hm' (rfl | hs)
          · exact hm hm'
          · exact h m (.inr hm') hs

end Letter

namespace Chart

theorem firstAmbiguous?_eq_none_iff {colors : List Letter → List Color} {seen : List (List Color)}
    {pieces : List (List Letter)} :
    firstAmbiguous? colors seen pieces = none ↔
      (∀ p ∈ pieces, (colors p).Nodup ∧ ∀ cs ∈ seen, ¬ Color.sameSet (colors p) cs) ∧
        pieces.Pairwise fun p q => ¬ Color.sameSet (colors q) (colors p) := by
  induction pieces generalizing seen with
  | nil => simp [firstAmbiguous?]
  | cons p ps ih =>
      rw [firstAmbiguous?, List.pairwise_cons, List.forall_mem_cons]
      by_cases h : ¬ (colors p).Nodup ∨ seen.any (Color.sameSet (colors p))
      · rw [if_pos h]
        refine iff_of_false (by simp) fun ⟨⟨⟨hn, hs⟩, _⟩, _⟩ => ?_
        rcases h with h | h
        · exact h hn
        · obtain ⟨cs, hcs, h⟩ := List.any_eq_true.mp h
          exact hs cs hcs h
      · rw [if_neg h, ih]
        simp only [not_or, not_not, List.any_eq_true, not_exists, not_and] at h
        simp only [List.forall_mem_cons]
        constructor
        · rintro ⟨hp, hps⟩
          exact ⟨⟨h, fun q hq => ⟨(hp q hq).1, (hp q hq).2.2⟩⟩, fun q hq => (hp q hq).2.1, hps⟩
        · rintro ⟨⟨_, hp⟩, hpq, hps⟩
          exact ⟨fun q hq => ⟨(hp q hq).1, hpq q hq, (hp q hq).2⟩, hps⟩

/-- What the checks guarantee. -/
structure Checked (t : Chart) : Prop where
  related_mem (l : Letter) : t.related l ∈ t.pieces
  mem_related (l : Letter) : l ∈ t.related l
  nodup : t.pieces.flatten.Nodup
  length_eq {piece : List Letter} : piece ∈ t.pieces → piece.length = t.kind.size
  nodup_colors {piece : List Letter} : piece ∈ t.pieces → (piece.map t.solvedColor).Nodup
  apart : t.pieces.Pairwise fun piece other =>
    ¬ Color.sameSet (other.map t.solvedColor) (piece.map t.solvedColor)

namespace Checked

variable {t : Chart} (ht : t.Checked) {piece other : List Letter}
include ht

theorem mem_flatten (l : Letter) : l ∈ t.pieces.flatten :=
  List.mem_flatten_of_mem (ht.related_mem l) (ht.mem_related l)

theorem nodup_piece (hp : piece ∈ t.pieces) : piece.Nodup :=
  (List.nodup_flatten.mp ht.nodup).1 piece hp

theorem eq_related (hp : piece ∈ t.pieces) {l : Letter} (hl : l ∈ piece) : piece = t.related l := by
  have : Std.Symm (List.Disjoint (α := Letter)) := ⟨fun _ _ h _ hx hy => h hy hx⟩
  by_contra hne
  exact (List.nodup_flatten.mp ht.nodup).2.forall hp (ht.related_mem l) hne hl (ht.mem_related l)

theorem eq_of_colors (hp : piece ∈ t.pieces) (ho : other ∈ t.pieces)
    (h : ∀ c, c ∈ piece.map t.solvedColor ↔ c ∈ other.map t.solvedColor) : piece = other := by
  have : Std.Symm fun p q : List Letter => ¬ Color.sameSet (q.map t.solvedColor) (p.map t.solvedColor) :=
    ⟨fun _ _ h => Color.sameSet_comm ▸ h⟩
  by_contra hne
  exact ht.apart.forall ho hp (Ne.symm hne) (Color.sameSet_iff.mpr h)

theorem related_eq {a b : Letter} (h : t.areRelated a b) : t.related a = t.related b :=
  ht.eq_related (ht.related_mem a) (List.contains_iff_mem.mp h)

theorem areRelated_symm {a b : Letter} (h : t.areRelated a b) : t.areRelated b a := by
  rw [areRelated, List.contains_iff_mem, ← ht.related_eq h]
  exact ht.mem_related a

theorem exists_mem (hp : piece ∈ t.pieces) : ∃ l, l ∈ piece := by
  have hl := ht.length_eq hp
  cases piece with
  | nil => cases hk : t.kind <;> simp [hk, PieceKind.size] at hl
  | cons l _ => exact ⟨l, by simp⟩

theorem find?_piece (l : Letter) : t.pieces.find? (·.contains l) = some (t.related l) := by
  cases h : t.pieces.find? (·.contains l) with
  | none => exact absurd (ht.mem_related l) (by simpa using List.find?_eq_none.mp h _ (ht.related_mem l))
  | some piece => rw [ht.eq_related (List.mem_of_find?_eq_some h) (by simpa using List.find?_some h)]

theorem exists_eq_related (hp : piece ∈ t.pieces) : ∃ l, piece = t.related l := by
  obtain ⟨l, hl⟩ := ht.exists_mem hp
  exact ⟨l, ht.eq_related hp hl⟩

end Checked

theorem complete_eq_ok_iff {α : Type} {kind : PieceKind} {table : LabelTable} {f : Letter → Option α}
    {v : Vector α 24} : complete kind table f = .ok v ↔ ∀ l, f l = some (Letter.entry v l) := by
  rw [← Letter.tabulate_eq_ok_iff]
  unfold complete
  cases Letter.tabulate f <;> simp [Except.mapError]

end Chart

/-! ## Reading a scheme -/

section

variable {α β : Type}

theorem exists_map_eq_map {γ : Type} {f : α → γ} {g : β → γ} {xs : List α} (h : ∀ x ∈ xs, ∃ y, f x = g y) :
    ∃ ys : List β, xs.map f = ys.map g := by
  have hm : xs.map f ∈ Set.range (List.map g) := by
    rw [Set.range_list_map]
    intro o ho
    obtain ⟨x, hx, rfl⟩ := List.mem_map.mp ho
    obtain ⟨y, hy⟩ := h x hx
    exact ⟨y, hy.symm⟩
  obtain ⟨ys, hys⟩ := hm
  exact ⟨ys, hys.symm⟩

theorem exists_of_countP_eq_one {P : α → Bool} {xs : List α} (h : xs.countP P = 1) : ∃ x ∈ xs, P x :=
  List.countP_pos_iff.mp (h ▸ Nat.one_pos)

theorem eq_of_countP_eq_one {P : α → Bool} {xs : List α} (h : xs.countP P = 1) {x y : α} (hx : x ∈ xs)
    (hy : y ∈ xs) (px : P x) (py : P y) : x = y := by
  rw [List.countP_eq_length_filter] at h
  obtain ⟨z, hz⟩ := List.length_eq_one_iff.mp h
  have hx' : x ∈ xs.filter P := List.mem_filter.mpr ⟨hx, px⟩
  have hy' : y ∈ xs.filter P := List.mem_filter.mpr ⟨hy, py⟩
  rw [hz, List.mem_singleton] at hx' hy'
  rw [hx', hy']

theorem nodup_keys_reverse {es : List (α × β)} (h : (es.map (·.1)).Nodup) : (es.reverse.map (·.1)).Nodup := by
  rwa [List.map_reverse, List.nodup_reverse]

theorem lookup_eq_some_iff_mem [BEq α] [LawfulBEq α] {es : List (α × β)} (hn : (es.map (·.1)).Nodup) {a : α} {b : β} :
    es.lookup a = some b ↔ (a, b) ∈ es := by
  induction es with
  | nil => simp
  | cons e es ih =>
      rw [List.map_cons, List.nodup_cons] at hn
      rw [List.mem_cons]
      by_cases h : a = e.1
      · subst h
        rw [List.lookup_cons_self, Option.some.injEq]
        constructor
        · rintro rfl
          exact .inl rfl
        · rintro (h | h)
          · rw [← h]
          · exact absurd (List.mem_map_of_mem h) hn.1
      · rw [List.lookup_cons, beq_false_of_ne h, ih hn.2, or_iff_right]
        exact fun he => h (congrArg Prod.fst he)

end

theorem Face.ofIndex?_isSome_iff {n : Nat} : (ofIndex? n).isSome ↔ n < 6 := by
  simp [ofIndex?, all]

theorem Sticker.ofCoordinates?_isSome_iff {face row col : Nat} :
    (ofCoordinates? face row col).isSome ↔ face < 6 ∧ row < 3 ∧ col < 3 := by
  rw [← Face.ofIndex?_isSome_iff]
  unfold ofCoordinates?
  cases Face.ofIndex? face with
  | none => simp
  | some f => by_cases h : row < 3 ∧ col < 3 <;> simp [h]

/-- The letter of a record and the sticker at its place, if it has both. -/
def Placement.read? (p : Placement) : Option (Letter × Sticker) :=
  (Letter.ofChar? p.letter).bind fun l => (Sticker.ofCoordinates? p.face p.row p.col).map fun q => (l, q)

theorem Placement.read?_eq_some_iff {p : Placement} {l : Letter} {q : Sticker} :
    p.read? = some (l, q) ↔ l.IsWritten p.letter ∧ Sticker.ofCoordinates? p.face p.row p.col = some q := by
  simp [read?, Option.bind_eq_some_iff, Letter.ofChar?_eq_some_iff]

theorem Placement.read?_isSome_iff {p : Placement} :
    p.read?.isSome ↔ (∃ l : Letter, l.IsWritten p.letter) ∧ p.face < 6 ∧ p.row < 3 ∧ p.col < 3 := by
  rw [← Sticker.ofCoordinates?_isSome_iff]
  simp only [Option.isSome_iff_exists, Prod.exists, read?_eq_some_iff, exists_and_left, exists_and_right]

namespace Chart

variable {kind : PieceKind} {scheme : PieceScheme} {t : Chart}

/-- The chart says what the scheme says. -/
structure Reads (t : Chart) (scheme : PieceScheme) : Prop where
  placement {p : Placement} : p ∈ scheme.placements → ∃ l, p.read? = some (l, t.sticker l)
  placed_once (l : Letter) : scheme.placements.countP (fun p => l.IsWritten p.letter) = 1
  groups : scheme.groups.map (List.map Letter.ofChar?) = t.pieces.map (List.map some)

theorem place_eq_ok_iff {placed placed' : List (Letter × Sticker)} {p : Placement} :
    place kind placed p = .ok placed' ↔
      ∃ e, p.read? = some e ∧ placed' = e :: placed ∧ e.1 ∉ placed.map (·.1) := by
  have hlookup (l : Letter) : (placed.lookup l).isSome ↔ l ∈ placed.map (·.1) := by
    simp only [List.lookup_isSome_iff, beq_iff_eq, List.mem_map, eq_comm (a := l)]
  unfold place
  rw [Outcome.bind_eq_ok_iff]
  constructor
  · rintro ⟨l, hl, h⟩
    rw [Letter.ofChar_eq_ok_iff, Letter.ofChar?_eq_some_iff] at hl
    split at h
    · cases h
    · rename_i q hq
      by_cases hp : (placed.lookup l).isSome
      · rw [if_pos hp] at h
        cases h
      · rw [if_neg hp] at h
        cases h
        exact ⟨(l, q), Placement.read?_eq_some_iff.mpr ⟨hl, hq⟩, rfl, mt (hlookup l).mpr hp⟩
  · rintro ⟨⟨l, q⟩, hr, rfl, hl⟩
    obtain ⟨hl', hq⟩ := Placement.read?_eq_some_iff.mp hr
    refine ⟨l, Letter.ofChar_eq_ok_iff.mpr (Letter.ofChar?_eq_some_iff.mpr hl'), ?_⟩
    rw [hq]
    exact if_neg (mt (hlookup l).mp hl)

theorem placements_eq_ok_iff {placements : List Placement} {placed : List (Letter × Sticker)} :
    placements.foldlM (place kind) [] = .ok placed ↔
      ∃ es : List (Letter × Sticker), placements.map Placement.read? = es.map some ∧ placed = es.reverse ∧
        (es.map (·.1)).Nodup := by
  rw [Outcome.foldlM_eq_ok_iff Placement.read? some (fun placed e => e :: placed)
    fun placed => (placed.map (·.1)).Nodup]
  · refine exists_congr fun es => and_congr_right fun _ => ?_
    rw [List.foldl_flip_cons_eq_append', List.append_nil]
    refine and_congr_right fun h => ?_
    rw [h, List.map_reverse, List.nodup_reverse]
  · intro placed p placed' hn
    rw [place_eq_ok_iff]
    refine exists_congr fun e => and_congr_right fun _ => and_congr_right fun h => ?_
    rw [h, List.map_cons, List.nodup_cons]
    exact (and_iff_left hn).symm
  · exact fun {_ _} h => (List.nodup_cons.mp h).2
  · exact List.nodup_nil

theorem addGroup_eq_ok_iff {pieces pieces' : List (List Letter)} {group : List Char} :
    addGroup kind pieces group = .ok pieces' ↔
      ∃ letters : List Letter, group.map Letter.ofChar? = letters.map some ∧ pieces' = pieces ++ [letters] ∧
        letters.length = kind.size ∧ letters.Nodup ∧ ∀ l ∈ letters, l ∉ pieces.flatten := by
  have hread {letters : List Letter} :
      group.mapM Letter.ofChar = .ok letters ↔ group.map Letter.ofChar? = letters.map some :=
    Outcome.mapM_eq_ok_iff_map Letter.ofChar_eq_ok_iff
  have hlength {letters : List Letter} (h : group.map Letter.ofChar? = letters.map some) :
      group.length = letters.length := by
    simpa using congrArg List.length h
  unfold addGroup
  constructor
  · intro h
    by_cases hl : group.length = kind.size
    · rw [if_neg (not_not.mpr hl)] at h
      obtain ⟨letters, hm, h⟩ := Outcome.bind_eq_ok_iff.mp h
      rw [hread] at hm
      split at h
      · cases h
      · rename_i hr
        cases h
        exact ⟨letters, hm, rfl, (hlength hm).symm.trans hl, Letter.firstRepeat?_eq_none_iff.mp hr⟩
    · rw [if_pos hl] at h
      cases h
  · rintro ⟨letters, hm, rfl, hl, hr⟩
    rw [if_neg (not_not.mpr ((hlength hm).trans hl))]
    refine Outcome.bind_eq_ok_iff.mpr ⟨letters, hread.mpr hm, ?_⟩
    rw [Letter.firstRepeat?_eq_none_iff.mpr hr]
    rfl

theorem groups_eq_ok_iff {groups : List (List Char)} {pieces : List (List Letter)} :
    groups.foldlM (addGroup kind) [] = .ok pieces ↔
      groups.map (List.map Letter.ofChar?) = pieces.map (List.map some) ∧ pieces.flatten.Nodup ∧
        ∀ piece ∈ pieces, piece.length = kind.size := by
  have happend (pieces : List (List Letter)) : pieces.foldl (fun ps p => ps ++ [p]) [] = pieces := by
    rw [List.foldl_append_eq_append, List.nil_append, ← List.flatMap_def, List.flatMap_singleton']
  rw [Outcome.foldlM_eq_ok_iff (List.map Letter.ofChar?) (List.map some) (fun pieces piece => pieces ++ [piece])
    fun pieces => pieces.flatten.Nodup ∧ ∀ piece ∈ pieces, piece.length = kind.size]
  · simp only [happend]
    exact ⟨fun ⟨_, hm, he, h⟩ => ⟨he ▸ hm, h⟩, fun ⟨hm, h⟩ => ⟨_, hm, rfl, h⟩⟩
  · intro pieces group pieces' ⟨hn, hl⟩
    rw [addGroup_eq_ok_iff]
    refine exists_congr fun letters => and_congr_right fun _ => and_congr_right fun h => ?_
    rw [h, List.flatten_append, List.flatten_singleton, List.nodup_append_comm, List.nodup_append',
      List.forall_mem_append, List.forall_mem_singleton, List.disjoint_left]
    tauto
  · rintro pieces letters ⟨hn, hl⟩
    rw [List.flatten_append] at hn
    exact ⟨hn.of_append_left, (List.forall_mem_append.mp hl).1⟩
  · simp

/-- A letter is written as often as it is read. -/
theorem countP_isWritten {α : Type} (c : α → Char) (xs : List α) (l : Letter) :
    xs.countP (fun x => l.IsWritten (c x)) = (xs.map fun x => Letter.ofChar? (c x)).count (some l) := by
  rw [List.count, List.countP_map]
  refine List.countP_congr fun x _ => ?_
  simp [Letter.ofChar?_eq_some_iff]

theorem countP_of_read {α : Type} {c : α → Char} {xs : List α} {ls : List Letter}
    (h : xs.map (fun x => Letter.ofChar? (c x)) = ls.map some) (l : Letter) :
    xs.countP (fun x => l.IsWritten (c x)) = ls.count l := by
  rw [countP_isWritten, h, List.count_map_of_injective ls some (Option.some_injective _)]

theorem letters_of_read {placements : List Placement} {es : List (Letter × Sticker)}
    (h : placements.map Placement.read? = es.map some) :
    placements.map (fun p => Letter.ofChar? p.letter) = (es.map (·.1)).map some := by
  have hread : (placements.map Placement.read?).map (Option.map (·.1)) = (es.map some).map (Option.map (·.1)) :=
    congrArg _ h
  rw [List.map_map, List.map_map] at hread
  rw [List.map_map]
  refine (List.map_congr_left fun p hp => ?_).trans hread
  obtain ⟨⟨l, q⟩, -, he⟩ := List.mem_map.mp (h ▸ List.mem_map_of_mem hp)
  rw [Function.comp_apply, ← he]
  exact Letter.ofChar?_eq_some_iff.mpr (Placement.read?_eq_some_iff.mp he.symm).1

theorem Reads.exists_placement (hr : t.Reads scheme) (l : Letter) :
    ∃ p ∈ scheme.placements, p.read? = some (l, t.sticker l) := by
  obtain ⟨p, hp, hl⟩ := exists_of_countP_eq_one (hr.placed_once l)
  obtain ⟨m, hm⟩ := hr.placement hp
  obtain rfl : m = l := (Placement.read?_eq_some_iff.mp hm).1.unique (of_decide_eq_true hl)
  exact ⟨p, hp, hm⟩

theorem Reads.exists_entries (hr : t.Reads scheme) : ∃ es : List (Letter × Sticker),
    scheme.placements.map Placement.read? = es.map some ∧ (es.map (·.1)).Nodup ∧ ∀ l, (l, t.sticker l) ∈ es := by
  obtain ⟨es, hes⟩ : ∃ es : List (Letter × Sticker), scheme.placements.map Placement.read? = es.map some :=
    exists_map_eq_map fun p hp => (hr.placement hp).elim fun _ h => ⟨_, h⟩
  refine ⟨es, hes, List.nodup_iff_count_le_one.mpr fun l => ?_, fun l => ?_⟩
  · rw [← countP_of_read (letters_of_read hes), hr.placed_once]
  · obtain ⟨p, hp, hread⟩ := hr.exists_placement l
    have hm : some (l, t.sticker l) ∈ es.map some := hes ▸ hread ▸ List.mem_map_of_mem hp
    exact (List.mem_map_of_injective (Option.some_injective _)).mp hm

theorem of_build (h : build kind scheme = .ok t) : t.kind = kind ∧ t.Reads scheme ∧ t.Checked := by
  unfold build at h
  obtain ⟨placed, hplaced, h⟩ := Outcome.bind_eq_ok_iff.mp h
  obtain ⟨stickers, hs, h⟩ := Outcome.bind_eq_ok_iff.mp h
  obtain ⟨pieces, hp, h⟩ := Outcome.bind_eq_ok_iff.mp h
  obtain ⟨pieceOf, ho, h⟩ := Outcome.bind_eq_ok_iff.mp h
  dsimp only at h
  split at h
  · cases h
  · rename_i ha
    obtain rfl := Except.ok.inj h
    obtain ⟨es, hes, rfl, hkeys⟩ := placements_eq_ok_iff.mp hplaced
    obtain ⟨hgroups, hn, hl⟩ := groups_eq_ok_iff.mp hp
    obtain ⟨hc, ha⟩ := firstAmbiguous?_eq_none_iff.mp ha
    simp only [complete_eq_ok_iff, lookup_eq_some_iff_mem (nodup_keys_reverse hkeys), List.mem_reverse] at hs ho
    refine ⟨rfl, ⟨fun {p} hp => ?_, fun l => ?_, hgroups⟩, ⟨fun l => ?_, fun l => ?_, hn, fun h => hl _ h,
      fun h => (hc _ h).1, ha⟩⟩
    · obtain ⟨e, he, hp⟩ := List.mem_map.mp (hes ▸ List.mem_map_of_mem hp)
      have hq := (lookup_eq_some_iff_mem hkeys).mpr (hs e.1)
      rw [(lookup_eq_some_iff_mem hkeys).mpr he] at hq
      exact ⟨e.1, hp.symm.trans (congrArg _ (Prod.ext rfl (Option.some.inj hq)))⟩
    · rw [countP_of_read (letters_of_read hes)]
      exact List.count_eq_one_of_mem hkeys (List.mem_map_of_mem (hs l))
    · exact List.mem_of_find?_eq_some (ho l)
    · simpa [related] using List.find?_some (ho l)

theorem build_of_reads (hr : t.Reads scheme) (hc : t.Checked) : build t.kind scheme = .ok t := by
  obtain ⟨es, hes, hkeys, hs⟩ := hr.exists_entries
  have hplaced : scheme.placements.foldlM (place t.kind) [] = .ok es.reverse :=
    placements_eq_ok_iff.mpr ⟨es, hes, rfl, hkeys⟩
  have hstickers : complete t.kind .labels (fun l => es.reverse.lookup l) = .ok t.stickers := by
    simp only [complete_eq_ok_iff, lookup_eq_some_iff_mem (nodup_keys_reverse hkeys), List.mem_reverse]
    exact hs
  have hpieces := groups_eq_ok_iff.mpr ⟨hr.groups, hc.nodup, fun _ => hc.length_eq⟩
  have hof : complete t.kind .connections (fun l => t.pieces.find? (·.contains l)) = .ok t.pieceOf :=
    complete_eq_ok_iff.mpr hc.find?_piece
  have ha : firstAmbiguous? (·.map t.solvedColor) [] t.pieces = none :=
    firstAmbiguous?_eq_none_iff.mpr ⟨fun _ h => ⟨hc.nodup_colors h, List.forall_mem_nil _⟩, hc.apart⟩
  refine Outcome.bind_eq_ok_iff.mpr ⟨_, hplaced, Outcome.bind_eq_ok_iff.mpr ⟨_, hstickers,
    Outcome.bind_eq_ok_iff.mpr ⟨_, hpieces, Outcome.bind_eq_ok_iff.mpr ⟨_, hof, ?_⟩⟩⟩⟩
  dsimp only
  split
  · rename_i piece hp
    cases ha.symm.trans hp
  · rfl

/-- The chart of a scheme is the one that says what the scheme says, if that passes the checks. -/
theorem build_eq_ok_iff : build kind scheme = .ok t ↔ t.kind = kind ∧ t.Reads scheme ∧ t.Checked := by
  constructor
  · exact of_build
  · rintro ⟨rfl, hr, hc⟩
    exact build_of_reads hr hc

theorem build_checked (h : build kind scheme = .ok t) : t.kind = kind ∧ t.Checked :=
  let ⟨hk, _, hc⟩ := build_eq_ok_iff.mp h
  ⟨hk, hc⟩

end Chart

theorem Lettering.build_eq_ok_iff {scheme : Scheme} {t : Lettering} :
    build scheme = .ok t ↔ ∀ k, Chart.build k (scheme.labels k) = .ok (t.chart k) := by
  constructor
  · intro h
    obtain ⟨edges, he, h⟩ := Outcome.bind_eq_ok_iff.mp h
    obtain ⟨corners, hc, h⟩ := Outcome.bind_eq_ok_iff.mp h
    obtain rfl := Except.ok.inj h
    rintro (_ | _)
    · exact he
    · exact hc
  · intro h
    exact Outcome.bind_eq_ok_iff.mpr ⟨_, h .edge, Outcome.bind_eq_ok_iff.mpr ⟨_, h .corner, rfl⟩⟩

theorem Lettering.build_checked {scheme : Scheme} {t : Lettering} (h : build scheme = .ok t) (k : PieceKind) :
    (t.chart k).kind = k ∧ (t.chart k).Checked :=
  Chart.build_checked (build_eq_ok_iff.mp h k)

end Blindfold
