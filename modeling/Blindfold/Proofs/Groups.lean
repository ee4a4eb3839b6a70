import Mathlib.Data.List.Sort
import Blindfold.Proofs.Sheets

/-!
# The groups of a sheet report

A report puts every pair of targets into the group of its verdict, one pair after the other. Together the groups are all
pairs of letters off the buffer's piece, each once (`Layout.validate_grouped`).
-/

namespace Blindfold

theorem Verdict.sorted_all : Verdict.all.Pairwise fun v w => v.index < w.index := by decide

theorem Verdict.mem_all (v : Verdict) : v ∈ Verdict.all := by cases v <;> decide

/-- By the first and then by the second letter. -/
def Letter.PairBefore (p q : Letter × Letter) : Prop := p.1 < q.1 ∨ p.1 = q.1 ∧ p.2 < q.2

instance : Std.Irrefl Letter.PairBefore where
  irrefl p h := by
    rcases h with h | ⟨-, h⟩
    · exact lt_irrefl _ h
    · exact lt_irrefl _ h

instance : Std.Antisymm Letter.PairBefore where
  antisymm p q h h' := by
    exfalso
    rcases h with h | ⟨h, h2⟩ <;> rcases h' with h' | ⟨h', h2'⟩
    · exact lt_asymm h h'
    · exact h.ne h'.symm
    · exact h'.ne h.symm
    · exact lt_asymm h2 h2'

/-! ## Adding to groups -/

namespace VerdictGroup

variable {es : List ((Letter × Letter) × Verdict)} {v w : Verdict} {vs : List Verdict} {p : Letter × Letter}

/-- The pairs with a verdict, in order. -/
def pairsOf (es : List ((Letter × Letter) × Verdict)) (v : Verdict) : List (Letter × Letter) :=
  (es.filter (·.2 = v)).map (·.1)

/-- The groups of given verdicts, but for those that would be empty. -/
def collect (es : List ((Letter × Letter) × Verdict)) (vs : List Verdict) : List VerdictGroup :=
  (vs.map fun v => (v, pairsOf es v)).filter (! ·.2.isEmpty)

theorem pairsOf_append_self : pairsOf (es ++ [(p, v)]) v = pairsOf es v ++ [p] := by
  simp [pairsOf]

theorem pairsOf_append_of_ne (h : v ≠ w) : pairsOf (es ++ [(p, v)]) w = pairsOf es w := by
  simp [pairsOf, h]

theorem collect_cons : collect es (v :: vs) =
    if pairsOf es v = [] then collect es vs else (v, pairsOf es v) :: collect es vs := by
  rw [collect, List.map_cons, List.filter_cons]
  split <;> split <;> simp_all [collect]

theorem collect_append_of_not_mem (h : v ∉ vs) : collect (es ++ [(p, v)]) vs = collect es vs := by
  rw [collect, collect]
  congr 1
  exact List.map_congr_left fun w hw => by rw [pairsOf_append_of_ne (ne_of_mem_of_not_mem hw h).symm]

theorem mem_collect {g : VerdictGroup} :
    g ∈ collect es vs ↔ g.1 ∈ vs ∧ g.2 = pairsOf es g.1 ∧ g.2 ≠ [] := by
  obtain ⟨v, pairs⟩ := g
  simp only [collect, List.mem_filter, List.mem_map, Prod.mk.injEq]
  constructor
  · rintro ⟨⟨w, hw, rfl, rfl⟩, hne⟩
    exact ⟨hw, rfl, by simpa using hne⟩
  · rintro ⟨hv, rfl, hne⟩
    exact ⟨⟨v, hv, rfl, rfl⟩, by simpa using hne⟩

theorem add_of_forall_lt {groups : List VerdictGroup} (h : ∀ g ∈ groups, v.index < g.1.index) :
    add p v groups = (v, [p]) :: groups := by
  cases groups with
  | nil => rfl
  | cons g groups =>
      have hg := h g List.mem_cons_self
      have hne : g.1 ≠ v := by
        rintro rfl
        exact lt_irrefl _ hg
      rw [add, if_neg hne, if_pos hg]

/-- One more pair goes into its group. -/
theorem add_collect (hs : vs.Pairwise fun v w => v.index < w.index) (hv : v ∈ vs) :
    add p v (collect es vs) = collect (es ++ [(p, v)]) vs := by
  induction vs with
  | nil => cases hv
  | cons w vs ih =>
      obtain ⟨hw, hs⟩ := List.pairwise_cons.mp hs
      rw [collect_cons, collect_cons]
      by_cases hvw : v = w
      · subst hvw
        have hn : v ∉ vs := fun hv => lt_irrefl _ (hw v hv)
        have hne : pairsOf es v ++ [p] ≠ [] := by simp
        rw [pairsOf_append_self, collect_append_of_not_mem hn, if_neg hne]
        split
        · rename_i he
          rw [he, add_of_forall_lt fun g hg => hw _ (mem_collect.mp hg).1]
          rfl
        · rw [add, if_pos rfl]
      · have hv := (List.mem_cons.mp hv).resolve_left hvw
        rw [pairsOf_append_of_ne hvw]
        split
        · exact ih hs hv
        · rw [add, if_neg (Ne.symm hvw), if_neg (hw v hv).not_gt, ih hs hv]

theorem foldl_add (es : List ((Letter × Letter) × Verdict)) :
    es.foldl (fun groups (p, v) => add p v groups) [] = collect es Verdict.all := by
  induction es using List.reverseRecOn with
  | nil => rfl
  | append_singleton es e ih =>
      rw [List.foldl_append, ih]
      exact add_collect Verdict.sorted_all (Verdict.mem_all e.2)

/-- No pair is lost. -/
theorem add_perm (p : Letter × Letter) (v : Verdict) (groups : List VerdictGroup) :
    ((add p v groups).flatMap (·.2)).Perm (p :: groups.flatMap (·.2)) := by
  induction groups with
  | nil => exact .refl _
  | cons g groups ih =>
      rw [add]
      split
      · simp
      · split
        · exact .refl _
        · exact (ih.append_left g.2).trans List.perm_middle

theorem foldl_add_perm (es : List ((Letter × Letter) × Verdict)) :
    ((es.foldl (fun groups (p, v) => add p v groups) []).flatMap (·.2)).Perm (es.map (·.1)) := by
  induction es using List.reverseRecOn with
  | nil => exact .refl _
  | append_singleton es e ih =>
      rw [List.foldl_append, List.map_append]
      exact ((add_perm e.1 e.2 _).trans (ih.cons e.1)).trans (List.perm_append_singleton e.1 _).symm

theorem mem_pairsOf : p ∈ pairsOf es v ↔ (p, v) ∈ es := by
  simp [pairsOf]

theorem pairsOf_sublist (es : List ((Letter × Letter) × Verdict)) (v : Verdict) :
    (pairsOf es v).Sublist (es.map (·.1)) :=
  List.filter_sublist.map _

theorem sum_length_pairsOf (es : List ((Letter × Letter) × Verdict)) :
    (Verdict.all.map fun v => (pairsOf es v).length).sum = es.length := by
  induction es with
  | nil => rfl
  | cons e es ih =>
      obtain ⟨p, v⟩ := e
      have step (w : Verdict) : (pairsOf ((p, v) :: es) w).length = (pairsOf es w).length + if v = w then 1 else 0 := by
        by_cases h : v = w <;> simp [pairsOf, h]
      have hone : (Verdict.all.map fun w => if v = w then 1 else 0).sum = 1 := by cases v <;> rfl
      simp only [step, List.sum_map_add, ih, hone, List.length_cons]

end VerdictGroup

/-! ## Reports -/

namespace SheetReport

open VerdictGroup (pairsOf)

variable {r : SheetReport} {v : Verdict}

theorem mem_entries {p : Letter × Letter} : (p, v) ∈ r.entries ↔ r.get? p.1 p.2 = some v := by
  obtain ⟨a, b⟩ := p
  simp only [entries, Letter.all, List.mem_flatMap, List.mem_filterMap, List.mem_finRange, true_and,
    Option.map_eq_some_iff, Prod.mk.injEq]
  constructor
  · rintro ⟨_, _, _, h, ⟨rfl, rfl⟩, rfl⟩
    exact h
  · exact fun h => ⟨a, b, v, h, ⟨rfl, rfl⟩, rfl⟩

theorem sorted_entries : (r.entries.map (·.1)).Pairwise Letter.PairBefore := by
  have hall : Letter.all.Pairwise (· < ·) := List.pairwise_lt_finRange 24
  rw [List.pairwise_map, entries, List.pairwise_flatMap]
  constructor
  · intro a _
    rw [List.pairwise_filterMap]
    refine hall.imp fun hb e he e' he' => ?_
    obtain ⟨_, -, rfl⟩ := Option.map_eq_some_iff.mp he
    obtain ⟨_, -, rfl⟩ := Option.map_eq_some_iff.mp he'
    exact .inr ⟨rfl, hb⟩
  · refine hall.imp fun ha e he e' he' => ?_
    obtain ⟨_, -, he⟩ := List.mem_filterMap.mp he
    obtain ⟨_, -, he'⟩ := List.mem_filterMap.mp he'
    obtain ⟨_, -, rfl⟩ := Option.map_eq_some_iff.mp he
    obtain ⟨_, -, rfl⟩ := Option.map_eq_some_iff.mp he'
    exact .inl ha

theorem grouped_eq (r : SheetReport) : r.grouped = VerdictGroup.collect r.entries Verdict.all :=
  VerdictGroup.foldl_add r.entries

theorem mem_grouped {g : VerdictGroup} : g ∈ r.grouped ↔ g.2 = pairsOf r.entries g.1 ∧ g.2 ≠ [] := by
  rw [grouped_eq, VerdictGroup.mem_collect, and_iff_right (Verdict.mem_all _)]

theorem count_eq (r : SheetReport) (v : Verdict) : r.count v = (pairsOf r.entries v).length := by
  rw [count, pairsOf, List.length_map, List.countP_eq_length_filter]

theorem sorted_grouped (r : SheetReport) : r.grouped.Pairwise fun g g' => g.1.index < g'.1.index := by
  have hs : (Verdict.all.map fun v => (v, pairsOf r.entries v)).Pairwise fun g g' => g.1.index < g'.1.index :=
    List.pairwise_map.mpr Verdict.sorted_all
  rw [grouped_eq, VerdictGroup.collect]
  exact hs.filter _

theorem problems_eq (r : SheetReport) (ignoreEmpty : Bool) : r.problems ignoreEmpty =
    r.grouped.filter fun g => g.1 ≠ .valid ∧ (ignoreEmpty → g.1 ≠ .unexpectedEmpty) := by
  cases ignoreEmpty with
  | false => simp [problems, VerdictGroup.remove]
  | true => simp [problems, VerdictGroup.remove, List.filter_filter, and_comm]

end SheetReport

namespace Layout

variable {y : Layout} {t : Lettering} {rows : Grid} {workers : Nat} {report : SheetReport}

theorem exists_get?_iff (h : y.validate t workers rows = .ok report) {p : Letter × Letter} :
    (∃ v, report.get? p.1 p.2 = some v) ↔ p ∈ y.pairs (t.chart y.kind) := by
  constructor
  · rintro ⟨v, hv⟩
    exact ((get?_eq_some_iff h).mp hv).1
  · intro hp
    obtain ⟨entries, he, -⟩ := exists_entries h
    rw [mapM_cells] at he
    obtain ⟨e, he⟩ := Outcome.exists_ok_of_mapM he hp
    cases hv : y.verdictOn t rows p with
    | error e => rw [hv] at he; cases he
    | ok v => exact ⟨v, (get?_eq_some_iff h).mpr ⟨hp, hv⟩⟩

theorem map_entries (h : y.validate t workers rows = .ok report) :
    report.entries.map (·.1) = y.pairs (t.chart y.kind) := by
  refine SheetReport.sorted_entries.eq_of_mem_iff sorted_pairs fun p => ?_
  rw [← exists_get?_iff h]
  simp [← SheetReport.mem_entries]

theorem length_pairs {t : Chart} (ht : t.Checked) (hk : t.kind = y.kind) :
    (y.pairs t).length = (24 - y.kind.size) * (24 - y.kind.size) := by
  simp [pairs, List.length_flatMap, length_targets ht hk]

/-- The groups of a report are not empty and stand in the order of their verdicts. Each pair of letters off the buffer's
piece is in one of them, once, and that is the group of the verdict on its cell; no other pair is in any. The verdicts
are counted as they are grouped, and the problems are the groups but for those that are passed over. -/
theorem validate_grouped {scheme : Scheme} {t : Lettering} (ht : Lettering.build scheme = .ok t) {y : Layout}
    {workers : Nat} {rows : Grid} {report : SheetReport} (h : y.validate t workers rows = .ok report) :
    (∀ a b, (report.grouped.flatMap (·.2)).count (a, b) =
      if (t.chart y.kind).areRelated y.buffer a || (t.chart y.kind).areRelated y.buffer b then 0 else 1) ∧
    (∀ g ∈ report.grouped, g.2 ≠ [] ∧ g.2.Pairwise Letter.PairBefore ∧
      ∀ p ∈ g.2, report.get? p.1 p.2 = some g.1 ∧ y.verdictOn t rows p = .ok g.1) ∧
    report.grouped.Pairwise (fun g g' => g.1.index < g'.1.index) ∧
    (∀ g ∈ report.grouped, report.count g.1 = g.2.length) ∧
    (∀ v, (∀ g ∈ report.grouped, g.1 ≠ v) → report.count v = 0) ∧
    (Verdict.all.map report.count).sum = (24 - y.kind.size) * (24 - y.kind.size) ∧
    ∀ ignoreEmpty, report.problems ignoreEmpty =
      report.grouped.filter fun g => g.1 ≠ .valid ∧ (ignoreEmpty → g.1 ≠ .unexpectedEmpty) := by
  obtain ⟨hk, hchecked⟩ := Lettering.build_checked ht y.kind
  have hpairs := map_entries h
  refine ⟨fun a b => ?once, fun g hg => ?group, report.sorted_grouped, fun g hg => ?size, fun v hv => ?absent, ?total,
    report.problems_eq⟩
  case once =>
      have hnodup : (y.pairs (t.chart y.kind)).Nodup := hpairs ▸ SheetReport.sorted_entries.nodup
      rw [SheetReport.grouped, (VerdictGroup.foldl_add_perm report.entries).count_eq, hpairs, hnodup.count]
      simp only [mem_pairs, isBuffer]
      cases (t.chart y.kind).areRelated y.buffer a <;> cases (t.chart y.kind).areRelated y.buffer b <;> simp
  case group =>
      obtain ⟨he, hne⟩ := SheetReport.mem_grouped.mp hg
      refine ⟨hne, ?_, fun p hp => ?_⟩
      · rw [he]
        exact SheetReport.sorted_entries.sublist (VerdictGroup.pairsOf_sublist _ _)
      · rw [he, VerdictGroup.mem_pairsOf, SheetReport.mem_entries] at hp
        exact ⟨hp, ((get?_eq_some_iff h).mp hp).2⟩
  case size => rw [report.count_eq, (SheetReport.mem_grouped.mp hg).1]
  case absent =>
      by_contra hne
      rw [report.count_eq] at hne
      exact hv (v, _) (SheetReport.mem_grouped.mpr ⟨rfl, List.ne_nil_of_length_pos (Nat.pos_of_ne_zero hne)⟩) rfl
  case total =>
      calc (Verdict.all.map report.count).sum
          = (Verdict.all.map fun v => (VerdictGroup.pairsOf report.entries v).length).sum := by
            simp only [← SheetReport.count_eq]
        _ = (report.entries.map (·.1)).length := by rw [VerdictGroup.sum_length_pairsOf, List.length_map]
        _ = (24 - y.kind.size) * (24 - y.kind.size) := by rw [hpairs, length_pairs hchecked hk]

/-- A sheet of corners with one comm in all cells. -/
theorem validate_grouped_commutator : ∃ t rows report, Lettering.build .speffz = .ok t ∧
    validate ⟨2, .corner, false, false⟩ t 4 rows = .ok report ∧ t.corners.areRelated 2 15 = false ∧
    t.corners.areRelated 2 11 = false ∧ (report.grouped.flatMap (·.2)).count (15, 11) = 1 ∧
    (report.grouped.flatMap (·.2)).count (2, 15) = 0 ∧ (Verdict.all.map report.count).sum = 441 := by
  obtain ⟨t, ht, h⟩ := Outcome.exists_ok_of_any (x := Lettering.speffz)
    (P := fun t => decide (t.corners.areRelated 2 2 = true ∧ t.corners.areRelated 2 15 = false ∧
      t.corners.areRelated 2 11 = false))
    (by decide +kernel)
  obtain ⟨h2, h15, h11⟩ := of_decide_eq_true h
  obtain ⟨hk, hchecked⟩ := Lettering.build_checked ht .corner
  let y : Layout := ⟨2, .corner, false, false⟩
  let text (_ _ : Letter) : String := "[R U R', D]"
  have hv := validate_of_holds (t := t) (hasShape_fill (y := y) hchecked hk text) (holds_fill t.corners text)
    (fun a b _ _ => Cycle.exists_classify ht ⟨.corner, 2, a, b⟩ _) 4
  obtain ⟨hcount, -, -, -, -, hsum, -⟩ := validate_grouped ht hv
  refine ⟨t, _, _, ht, hv, h15, h11, (hcount 15 11).trans ?_, (hcount 2 15).trans ?_, hsum⟩
  · exact if_neg (by simpa using ⟨h15, h11⟩)
  · exact if_pos (by simpa using .inl h2)

end Layout
end Blindfold
