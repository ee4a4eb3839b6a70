import Mathlib.Data.List.FinRange
import Blindfold.Proofs.Charts
import Blindfold.Sheet.Layout

/-!
# Where a sheet has its cells

The letters off the buffer's piece head rows and columns in alphabetical order, each at its `Layout.rank`. So the
cells of a sheet are those of all pairs of these letters (`Layout.cells_eq`), and in a sheet of the right shape none
of them is outside (`Layout.HasShape.isSome_textAt?`).
-/

namespace Blindfold

theorem zipIdx_eq_map_countP {xs : List Letter} (h : xs.Pairwise (· < ·)) (k : Nat) :
    xs.zipIdx k = xs.map fun x => (x, k + xs.countP (· < x)) := by
  induction xs generalizing k with
  | nil => rfl
  | cons x xs ih =>
      obtain ⟨hx, hs⟩ := List.pairwise_cons.mp h
      -- The list rises: the head is below all others, and nothing is below the head.
      have hhead : (x :: xs).countP (· < x) = 0 := by
        rw [List.countP_eq_zero]
        rintro y hy
        rcases List.mem_cons.mp hy with rfl | hy
        · simp
        · simpa using (hx y hy).le
      rw [List.zipIdx_cons, ih hs, List.map_cons, hhead]
      congr 1
      refine List.map_congr_left fun y hy => ?_
      rw [List.countP_cons_of_pos (by simpa using hx y hy), Nat.add_assoc, Nat.add_comm 1]

namespace Layout

variable {y : Layout} {t : Chart} {rows : Grid} {a b l : Letter}

/-! ## Targets -/

/-- The letters off the buffer's piece. -/
def targets (y : Layout) (t : Chart) : List Letter := Letter.all.filter (! y.isBuffer t ·)

/-- All pairs of a first and a second target, by the first and then by the second. -/
def pairs (y : Layout) (t : Chart) : List (Letter × Letter) :=
  (y.targets t).flatMap fun a => (y.targets t).map fun b => (a, b)

/-- The place of a target among the rows and columns below the header: that of the letter in the alphabet, or, if
the buffer's letters have no place, the number of targets before it. -/
def rank (y : Layout) (t : Chart) (l : Letter) : Nat :=
  if y.keepsBufferGroups then l else (y.targets t).countP (· < l)

theorem mem_targets : l ∈ y.targets t ↔ y.isBuffer t l = false := by
  simp [targets, Letter.all]

theorem mem_pairs : (a, b) ∈ y.pairs t ↔ y.isBuffer t a = false ∧ y.isBuffer t b = false := by
  simp [pairs, mem_targets]

theorem sorted_targets : (y.targets t).Pairwise (· < ·) := (List.pairwise_lt_finRange 24).filter _

theorem sorted_headings : (y.headings t).Pairwise (· < ·) := by
  unfold headings
  split
  · exact List.pairwise_lt_finRange 24
  · exact sorted_targets

theorem filter_headings : (y.headings t).filter (! y.isBuffer t ·) = y.targets t := by
  unfold headings
  split
  · rfl
  · rw [List.filter_filter, targets]
    simp only [Bool.and_self]

theorem countP_headings (l : Letter) : (y.headings t).countP (· < l) = y.rank t l := by
  unfold headings rank
  split
  · revert l
    decide
  · rfl

theorem slots_eq : y.slots t = (y.targets t).map fun l => (l, y.rank t l) := by
  rw [slots, zipIdx_eq_map_countP sorted_headings, List.filter_map, ← filter_headings]
  simp only [Nat.zero_add, countP_headings]
  rfl

theorem mem_slots {n : Nat} : (l, n) ∈ y.slots t ↔ y.isBuffer t l = false ∧ n = y.rank t l := by
  rw [slots_eq, List.mem_map, ← mem_targets]
  constructor
  · rintro ⟨_, hm, h⟩
    cases h
    exact ⟨hm, rfl⟩
  · rintro ⟨hm, rfl⟩
    exact ⟨l, hm, rfl⟩

/-! ## Shapes -/

/-- The sheet has as many rows and columns as expected; a header row may have any length. -/
structure HasShape (y : Layout) (rows : Grid) : Prop where
  length_rows : rows.length = y.dimension
  length_row {i : Nat} {row : List String} : y.headerCount ≤ i → rows[i]? = some row → row.length = y.dimension

theorem mem_drop_zipIdx {n i : Nat} {row : List String} :
    (row, i) ∈ rows.zipIdx.drop n ↔ n ≤ i ∧ rows[i]? = some row := by
  simp only [List.mem_iff_getElem?, List.getElem?_drop, List.getElem?_zipIdx, Option.map_eq_some_iff,
    Prod.mk.injEq, Nat.zero_add]
  constructor
  · rintro ⟨k, _, hr, rfl, rfl⟩
    exact ⟨Nat.le_add_right n k, hr⟩
  · rintro ⟨hn, hr⟩
    rw [← Nat.add_sub_of_le hn] at hr
    exact ⟨i - n, row, hr, rfl, Nat.add_sub_of_le hn⟩

theorem checkShape_eq_ok_iff : y.checkShape rows = .ok () ↔ y.HasShape rows := by
  have hrows : y.firstBadRow? rows = none ↔
      ∀ i row, y.headerCount ≤ i → rows[i]? = some row → row.length = y.dimension := by
    simp only [firstBadRow?, List.find?_eq_none, Prod.forall, mem_drop_zipIdx, and_imp, ne_eq,
      decide_not, Bool.not_eq_true', decide_eq_false_iff_not, not_not]
    exact forall_comm
  unfold checkShape
  by_cases hl : rows.length = y.dimension
  · rw [if_neg (not_not.mpr hl)]
    cases hb : y.firstBadRow? rows with
    | some bad => exact iff_of_false nofun fun h => by simp [hrows.mpr fun _ _ => h.length_row] at hb
    | none => exact iff_of_true rfl ⟨hl, fun {i row} => hrows.mp hb i row⟩
  · rw [if_pos hl]
    exact iff_of_false nofun fun h => hl h.length_rows

theorem length_targets (ht : t.Checked) (hk : t.kind = y.kind) : (y.targets t).length = 24 - y.kind.size := by
  have hbuffer : Letter.all.countP (y.isBuffer t) = y.kind.size := by
    have hp : (Letter.all.filter (y.isBuffer t)).Perm (t.related y.buffer) := by
      refine (List.perm_ext_iff_of_nodup ((List.nodup_finRange 24).filter _)
        (ht.nodup_piece (ht.related_mem y.buffer))).mpr fun l => ?_
      simp [isBuffer, Chart.areRelated]
    rw [List.countP_eq_length_filter, hp.length_eq, ht.length_eq (ht.related_mem y.buffer), hk]
  have hall := List.length_eq_countP_add_countP (y.isBuffer t) (l := Letter.all)
  rw [hbuffer, Letter.all, List.length_finRange] at hall
  rw [targets, ← List.countP_eq_length_filter, hall, Nat.add_sub_cancel_left]
  congr 1
  funext l
  cases y.isBuffer t l <;> rfl

theorem length_headings (ht : t.Checked) (hk : t.kind = y.kind) :
    y.headerCount + (y.headings t).length = y.dimension := by
  have hl := length_targets ht hk
  rw [targets] at hl
  unfold headings dimension
  split
  · rw [Letter.all, List.length_finRange, Nat.sub_zero, Nat.add_comm]
  · rw [hl, Nat.add_comm]

theorem getElem?_headings (hl : y.isBuffer t l = false) : (y.headings t)[y.rank t l]? = some l := by
  have hm : l ∈ y.headings t := List.mem_of_mem_filter (filter_headings (y := y) ▸ mem_targets.mpr hl)
  rw [← List.mk_mem_zipIdx_iff_getElem?, zipIdx_eq_map_countP sorted_headings]
  simpa only [Nat.zero_add, countP_headings] using List.mem_map_of_mem (f := fun l => (l, y.rank t l)) hm

theorem rank_inj (ha : y.isBuffer t a = false) (hb : y.isBuffer t b = false) :
    y.rank t a = y.rank t b ↔ a = b := by
  refine ⟨fun h => ?_, fun h => h ▸ rfl⟩
  have hget := getElem?_headings ha
  rw [h, getElem?_headings hb] at hget
  exact (Option.some.inj hget).symm

theorem rank_lt (ht : t.Checked) (hk : t.kind = y.kind) (hl : y.isBuffer t l = false) :
    y.headerCount + y.rank t l < y.dimension := by
  obtain ⟨hlt, -⟩ := List.getElem?_eq_some_iff.mp (getElem?_headings hl)
  rw [← length_headings ht hk]
  exact Nat.add_lt_add_left hlt _

/-- In a sheet of the right shape every pair of targets has a cell. -/
theorem HasShape.isSome_textAt? (hr : y.HasShape rows) (ht : t.Checked) (hk : t.kind = y.kind)
    (ha : y.isBuffer t a = false) (hb : y.isBuffer t b = false) :
    (y.textAt? rows (y.rank t b) (y.rank t a)).isSome := by
  have hrow : y.headerCount + y.rank t b < rows.length := hr.length_rows ▸ rank_lt ht hk hb
  have hget := List.getElem?_eq_getElem hrow
  have hcol := rank_lt ht hk ha
  rw [← hr.length_row (Nat.le_add_right _ _) hget] at hcol
  rw [textAt?, hget, Option.bind_some, List.getElem?_eq_getElem hcol]
  rfl

/-- The sheet has a given text in the cell of every pair of targets. -/
def Holds (y : Layout) (t : Chart) (rows : Grid) (text : Letter → Letter → String) : Prop :=
  ∀ a b, y.isBuffer t a = false → y.isBuffer t b = false →
    y.textAt? rows (y.rank t b) (y.rank t a) = some (text a b)

/-- The sheet with given texts; the cells of a header are left empty. -/
def fill (y : Layout) (t : Chart) (text : Letter → Letter → String) : Grid :=
  List.replicate y.headerCount [] ++ (y.headings t).map fun b =>
    List.replicate y.headerCount "" ++ (y.headings t).map fun a => text a b

theorem hasShape_fill (ht : t.Checked) (hk : t.kind = y.kind) (text : Letter → Letter → String) :
    y.HasShape (y.fill t text) := by
  have hl := length_headings ht hk
  constructor
  · rw [fill, List.length_append, List.length_replicate, List.length_map, hl]
  · intro i row hi hrow
    rw [fill, List.getElem?_append_right (by rwa [List.length_replicate]), List.getElem?_map] at hrow
    obtain ⟨b, -, rfl⟩ := Option.map_eq_some_iff.mp hrow
    rw [List.length_append, List.length_replicate, List.length_map, hl]

theorem holds_fill (t : Chart) (text : Letter → Letter → String) : y.Holds t (y.fill t text) text := by
  intro a b ha hb
  simp [textAt?, fill, List.getElem?_append_right, getElem?_headings ha, getElem?_headings hb]

/-- A cell that is changed is read in its own place only. -/
theorem textAt?_modify {i j row col : Nat} {s : String} (h : ¬ (i = y.headerCount + row ∧ j = y.headerCount + col)) :
    y.textAt? (rows.modify i fun r => r.set j s) row col = y.textAt? rows row col := by
  rw [textAt?, textAt?, List.getElem?_modify]
  by_cases hi : i = y.headerCount + row
  · cases rows[y.headerCount + row]? with
    | none => rfl
    | some r =>
        have hj : j ≠ y.headerCount + col := fun hj => h ⟨hi, hj⟩
        simp [hi, List.getElem?_set_ne hj]
  · simp [hi]

/-! ## Cells -/

/-- The text in the cell of a pair of targets. -/
def textOf (y : Layout) (t : Chart) (rows : Grid) (pair : Letter × Letter) : String :=
  (y.textAt? rows (y.rank t pair.2) (y.rank t pair.1)).getD ""

theorem Holds.textOf_eq {text : Letter → Letter → String} (h : y.Holds t rows text) (hp : (a, b) ∈ y.pairs t) :
    y.textOf t rows (a, b) = text a b := by
  obtain ⟨ha, hb⟩ := mem_pairs.mp hp
  rw [textOf, h a b ha hb, Option.getD_some]

theorem cells_eq : y.cells t rows = (y.pairs t).map fun pair =>
    { target1 := pair.1, target2 := pair.2, text := y.textOf t rows pair } := by
  rw [cells, slots_eq, pairs, List.flatMap_map, List.map_flatMap]
  simp only [List.map_map]
  rfl

theorem sorted_pairs : (y.pairs t).Pairwise fun p q => p.1 < q.1 ∨ p.1 = q.1 ∧ p.2 < q.2 := by
  rw [pairs, List.pairwise_flatMap]
  constructor
  · intro a _
    rw [List.pairwise_map]
    exact sorted_targets.imp fun h => .inr ⟨rfl, h⟩
  · refine sorted_targets.imp fun h p hp q hq => ?_
    obtain ⟨_, _, rfl⟩ := List.mem_map.mp hp
    obtain ⟨_, _, rfl⟩ := List.mem_map.mp hq
    exact .inl h

end Layout
end Blindfold
