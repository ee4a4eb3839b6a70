import Blindfold.Proofs.Batch
import Blindfold.Proofs.Places
import Blindfold.Proofs.Verdicts

/-!
# What a sheet report says

A sheet of the right shape gets the verdicts on all its cells, whatever the number of workers, or the error of the
first cell without one (`Layout.validate_shared`). The verdict on a pair of targets is that on the text in its cell:
sheets of different layouts with the same texts get the same report, and no other cell is looked at
(`Layout.validate_texts`).
-/

namespace Blindfold

theorem lookup_of_mapM {α β ε : Type} [BEq α] [LawfulBEq α] {g : α → Except ε β} {xs : List α}
    {entries : List (α × β)} (h : (xs.mapM fun x => (g x).map fun b => (x, b)) = .ok entries) {x : α} {b : β} :
    entries.lookup x = some b ↔ x ∈ xs ∧ g x = .ok b := by
  have hentries := Outcome.mapM_eq_ok_iff.mp h
  clear h
  induction hentries with
  | nil => exact iff_of_false nofun nofun
  | @cons y _ ys rest hy _ ih =>
      cases hg : g y with
      | error e => rw [hg] at hy; cases hy
      | ok c =>
          rw [hg] at hy
          cases hy
          by_cases hxy : x = y
          · subst hxy
            simp [hg]
          · rw [List.lookup_cons, beq_false_of_ne hxy, List.mem_cons, or_iff_right hxy]
            exact ih

/-- The report with given verdicts. -/
def SheetReport.ofFn (buffer : Letter) (kind : PieceKind) (f : Letter → Letter → Option Verdict) : SheetReport where
  buffer := buffer
  kind := kind
  verdicts := Vector.ofFn fun a => Vector.ofFn fun b => f a b

@[simp]
theorem SheetReport.get?_ofFn (buffer : Letter) (kind : PieceKind) (f : Letter → Letter → Option Verdict)
    (a b : Letter) : (ofFn buffer kind f).get? a b = f a b := by
  simp [ofFn, get?]

/-! ## One cell -/

namespace Cycle

variable {cycle : Cycle} {t : Lettering} {cell : String} {e : LabelError}

theorem exists_report_of_check {s : Sequence} (h : cycle.check t s = .error e) :
    ∃ k, (t.chart k).report (Cube.solved.run s) = .error e := by
  rcases Outcome.bind_eq_error_iff.mp h with h | ⟨_, _, h⟩
  · exact ⟨_, h⟩
  · rcases Outcome.bind_eq_error_iff.mp h with h | ⟨_, _, h⟩
    · exact ⟨_, h⟩
    · cases h

/-- Where a cell gets no verdict, a group shows the colors of no piece. -/
theorem exists_piece_of_classify (h : cycle.classify t cell = .error e) :
    ∃ k, ∃ piece ∈ (t.chart k).pieces, e = .unknownPiece (t.chart k).kind (Letter.textOf piece) := by
  unfold classify at h
  dsimp only at h
  split at h
  · cases h
  · split at h
    · cases h
    · split at h
      · obtain ⟨k, hr⟩ := exists_report_of_check h
        obtain ⟨piece, hp, -, he⟩ := Chart.exists_piece_of_report hr
        exact ⟨k, piece, hp, he⟩
      · cases h

/-- With the Speffz charts every cell gets a verdict. -/
theorem exists_classify (ht : Lettering.speffz = .ok t) (cycle : Cycle) (cell : String) :
    ∃ v, cycle.classify t cell = .ok v := by
  unfold classify
  dsimp only
  split
  · exact ⟨_, rfl⟩
  · split
    · exact ⟨_, rfl⟩
    · split
      · exact cycle.exists_check ht _
      · exact ⟨_, rfl⟩

end Cycle

namespace Layout

variable {y : Layout} {t : Lettering} {rows : Grid} {workers : Nat} {report : SheetReport} {a b : Letter}
  {v : Verdict}

/-- The verdict on the cell of a pair of targets. -/
def verdictOn (y : Layout) (t : Lettering) (rows : Grid) (pair : Letter × Letter) : Except LabelError Verdict :=
  Cycle.classify ⟨y.kind, y.buffer, pair.1, pair.2⟩ t (y.textOf (t.chart y.kind) rows pair)

theorem mapM_cells : (y.cells (t.chart y.kind) rows).mapM (y.classify t) =
    (y.pairs (t.chart y.kind)).mapM fun pair => (y.verdictOn t rows pair).map fun v => (pair, v) := by
  rw [cells_eq, List.mapM_map]
  rfl

/-! ## All cells -/

theorem validate_eq (hr : y.HasShape rows) : y.validate t workers rows =
    (((y.cells (t.chart y.kind) rows).mapM (y.classify t)).map y.reportOf).mapError .lettering := by
  simp only [validate, checkShape_eq_ok_iff.mpr hr, Batch.mapShared_eq]
  cases (y.cells (t.chart y.kind) rows).mapM (y.classify t) <;> rfl

theorem hasShape_of_validate (h : y.validate t workers rows = .ok report) : y.HasShape rows := by
  unfold validate at h
  obtain ⟨u, hu, -⟩ := Outcome.bind_eq_ok_iff.mp h
  rw [← checkShape_eq_ok_iff]
  cases hc : y.checkShape rows with
  | error e => rw [hc] at hu; cases hu
  | ok u => rfl

theorem exists_entries (h : y.validate t workers rows = .ok report) :
    ∃ entries, (y.cells (t.chart y.kind) rows).mapM (y.classify t) = .ok entries ∧
      report = y.reportOf entries := by
  rw [validate_eq (hasShape_of_validate h)] at h
  cases hm : (y.cells (t.chart y.kind) rows).mapM (y.classify t) with
  | error e => rw [hm] at h; cases h
  | ok entries =>
      rw [hm] at h
      exact ⟨entries, rfl, (Except.ok.inj h).symm⟩

theorem get?_eq_some_iff (h : y.validate t workers rows = .ok report) :
    report.get? a b = some v ↔
      (a, b) ∈ y.pairs (t.chart y.kind) ∧ y.verdictOn t rows (a, b) = .ok v := by
  obtain ⟨entries, he, rfl⟩ := exists_entries h
  rw [get?_reportOf, lookup_of_mapM (mapM_cells ▸ he)]

theorem exists_piece_of_classify {cell : Cell} {e : LabelError} (h : y.classify t cell = .error e) :
    ∃ k, ∃ piece ∈ (t.chart k).pieces, e = .unknownPiece (t.chart k).kind (Letter.textOf piece) := by
  rcases Outcome.bind_eq_error_iff.mp h with h | ⟨_, _, h⟩
  · exact Cycle.exists_piece_of_classify h
  · cases h

theorem exists_cell_iff : (∃ c ∈ y.cells (t.chart y.kind) rows,
      c.target1 = a ∧ c.target2 = b ∧ y.classify t c = .ok ((a, b), v)) ↔
    (a, b) ∈ y.pairs (t.chart y.kind) ∧ y.verdictOn t rows (a, b) = .ok v := by
  have hcell : y.classify t ⟨a, b, y.textOf (t.chart y.kind) rows (a, b)⟩ = .ok ((a, b), v) ↔
      y.verdictOn t rows (a, b) = .ok v := by
    constructor
    · intro h
      obtain ⟨w, hw, h⟩ := Outcome.bind_eq_ok_iff.mp h
      cases h
      exact hw
    · exact fun h => Outcome.bind_eq_ok_iff.mpr ⟨v, h, rfl⟩
  rw [cells_eq, ← hcell]
  constructor
  · rintro ⟨c, hc, rfl, rfl, h⟩
    obtain ⟨pair, hp, rfl⟩ := List.mem_map.mp hc
    exact ⟨hp, h⟩
  · rintro ⟨hp, h⟩
    exact ⟨_, List.mem_map_of_mem hp, rfl, rfl, h⟩

theorem exists_report (hr : y.HasShape rows)
    (h : ∀ pair ∈ y.pairs (t.chart y.kind), ∃ v, y.verdictOn t rows pair = .ok v) :
    ∃ report, ∀ workers, y.validate t workers rows = .ok report := by
  cases hm : (y.cells (t.chart y.kind) rows).mapM (y.classify t) with
  | ok entries => exact ⟨y.reportOf entries, fun workers => by rw [validate_eq hr, hm]; rfl⟩
  | error e =>
      rw [mapM_cells] at hm
      obtain ⟨before, pair, after, hp, -, he⟩ := Outcome.mapM_eq_error_iff.mp hm
      obtain ⟨v, hv⟩ := h pair (hp ▸ List.mem_append_right _ List.mem_cons_self)
      rw [hv] at he
      cases he

/-! ## Sharing the cells -/

/-- The cells, in the order of their targets, are cut into equal runs. Putting the results of the runs together gives
what one run over all cells gives: every verdict in its place, or the error of the first cell that has one. -/
theorem validate_shared (t : Lettering) {y : Layout} {rows : Grid} (hr : y.HasShape rows) :
    (y.cells (t.chart y.kind) rows).Pairwise (fun c d =>
      c.target1 < d.target1 ∨ c.target1 = d.target1 ∧ c.target2 < d.target2) ∧
    (∀ workers,
      let cells := y.cells (t.chart y.kind) rows
      let runs := Batch.chunks (Batch.chunkSize cells.length workers) cells
      Batch.Cuts (max 1 (cells.length ⌈/⌉ workers)) cells runs ∧
      (runs.mapM (Batch.mapRun (y.classify t))).map List.flatten = cells.mapM (y.classify t) ∧
      y.validate t workers rows = ((cells.mapM (y.classify t)).map y.reportOf).mapError .lettering) ∧
    ((∀ c ∈ y.cells (t.chart y.kind) rows, ∃ v, y.classify t c = .ok v) →
      ∃ report, (∀ workers, y.validate t workers rows = .ok report) ∧
        ∀ a b v, report.get? a b = some v ↔ ∃ c ∈ y.cells (t.chart y.kind) rows,
          c.target1 = a ∧ c.target2 = b ∧ y.classify t c = .ok ((a, b), v)) ∧
    ∀ before c after e, y.cells (t.chart y.kind) rows = before ++ c :: after →
      (∀ d ∈ before, ∃ v, y.classify t d = .ok v) → y.classify t c = .error e →
      (∃ k, ∃ piece ∈ (t.chart k).pieces, e = .unknownPiece (t.chart k).kind (Letter.textOf piece)) ∧
      ∀ workers, y.validate t workers rows = .error (.lettering e) := by
  refine ⟨?_, fun workers => ⟨?_, Batch.mapRuns_eq _ _ _, validate_eq hr⟩, fun h => ?_,
    fun before c after e hc hbefore he => ⟨exists_piece_of_classify he, fun workers => ?_⟩⟩
  · rw [cells_eq, List.pairwise_map]
    exact sorted_pairs
  · rw [← Batch.chunkSize_eq]
    exact Batch.cuts_chunks (Nat.le_max_left _ _) _
  · have hv (pair : Letter × Letter) (hp : pair ∈ y.pairs (t.chart y.kind)) :
        ∃ v, y.verdictOn t rows pair = .ok v := by
      obtain ⟨_, hc⟩ := h _ (cells_eq ▸ List.mem_map_of_mem hp)
      obtain ⟨v, hv, -⟩ := Outcome.bind_eq_ok_iff.mp hc
      exact ⟨v, hv⟩
    obtain ⟨report, hreport⟩ := exists_report hr hv
    exact ⟨report, hreport, fun a b v =>
      (get?_eq_some_iff (hreport 1)).trans exists_cell_iff.symm⟩
  · have hm := Outcome.mapM_eq_error_iff.mpr ⟨before, c, after, hc, hbefore, he⟩
    rw [validate_eq hr, hm]
    rfl

/-- After `U F` a group of the exchanged scheme shows the colors of no group, and three workers say so. -/
theorem validate_shared_exchanged : ∃ t rows, Lettering.build .exchanged = .ok t ∧
    HasShape ⟨2, .edge, false, false⟩ rows ∧
    (cells ⟨2, .edge, false, false⟩ t.edges rows).mapM (classify ⟨2, .edge, false, false⟩ t) =
      .error (.unknownPiece .edge "cq") ∧
    (∃ k, ∃ piece ∈ (t.chart k).pieces,
      LabelError.unknownPiece .edge "cq" = .unknownPiece (t.chart k).kind (Letter.textOf piece)) ∧
    validate ⟨2, .edge, false, false⟩ t 3 rows = .error (.lettering (.unknownPiece .edge "cq")) := by
  obtain ⟨t, ht, h⟩ := Outcome.exists_ok_of_any (x := Lettering.build .exchanged)
    (P := fun t => (cells ⟨2, .edge, false, false⟩ t.edges
        (fill ⟨2, .edge, false, false⟩ t.edges fun _ _ => "U F")).mapM (classify ⟨2, .edge, false, false⟩ t) =
      .error (.unknownPiece .edge "cq")) (by decide +kernel)
  have he := of_decide_eq_true h
  obtain ⟨hk, hchecked⟩ := Lettering.build_checked ht .edge
  have hr := hasShape_fill (y := ⟨2, .edge, false, false⟩) hchecked hk fun _ _ => "U F"
  obtain ⟨before, c, after, hc, hbefore, hce⟩ := Outcome.mapM_eq_error_iff.mp he
  obtain ⟨-, -, -, hfirst⟩ := validate_shared t hr
  obtain ⟨hpiece, hv⟩ := hfirst before c after _ hc hbefore hce
  exact ⟨t, _, ht, hr, he, hpiece, hv 3⟩

/-! ## Layouts -/

/-- The verdict on a text that is filed under two letters; none if one of them is on the buffer's piece. -/
def verdictOf? (t : Lettering) (kind : PieceKind) (buffer : Letter) (text : Letter → Letter → String) (a b : Letter) :
    Option Verdict :=
  if (t.chart kind).areRelated buffer a || (t.chart kind).areRelated buffer b then none
  else (Cycle.classify ⟨kind, buffer, a, b⟩ t (text a b)).toOption

theorem verdictOf?_eq_some_iff {kind : PieceKind} {buffer : Letter} {text : Letter → Letter → String} :
    verdictOf? t kind buffer text a b = some v ↔
      ((t.chart kind).areRelated buffer a = false ∧ (t.chart kind).areRelated buffer b = false) ∧
        Cycle.classify ⟨kind, buffer, a, b⟩ t (text a b) = .ok v := by
  unfold verdictOf?
  split
  · rename_i h
    refine iff_of_false nofun fun ⟨⟨ha, hb⟩, _⟩ => ?_
    rw [ha, hb] at h
    cases h
  · rename_i h
    rw [Bool.not_eq_true, Bool.or_eq_false_iff] at h
    rw [and_iff_right h]
    cases Cycle.classify ⟨kind, buffer, a, b⟩ t (text a b) <;> simp [Except.toOption]

theorem verdictOf?_eq_none_iff {kind : PieceKind} {buffer : Letter} {text : Letter → Letter → String}
    (hc : (t.chart kind).areRelated buffer a = false → (t.chart kind).areRelated buffer b = false →
      ∃ v, Cycle.classify ⟨kind, buffer, a, b⟩ t (text a b) = .ok v) :
    verdictOf? t kind buffer text a b = none ↔
      (t.chart kind).areRelated buffer a ∨ (t.chart kind).areRelated buffer b := by
  rw [← Bool.or_eq_true, verdictOf?]
  split
  · rename_i h
    exact iff_of_true rfl h
  · rename_i h
    refine iff_of_false ?_ h
    rw [Bool.not_eq_true, Bool.or_eq_false_iff] at h
    obtain ⟨v, hv⟩ := hc h.1 h.2
    rw [hv]
    nofun

/-- The report depends on the texts, and not on where the layout has their cells. -/
theorem validate_of_holds {text : Letter → Letter → String} (hr : y.HasShape rows)
    (hh : y.Holds (t.chart y.kind) rows text)
    (hc : ∀ a b, (t.chart y.kind).areRelated y.buffer a = false → (t.chart y.kind).areRelated y.buffer b = false →
      ∃ v, Cycle.classify ⟨y.kind, y.buffer, a, b⟩ t (text a b) = .ok v) (workers : Nat) :
    y.validate t workers rows = .ok (.ofFn y.buffer y.kind (verdictOf? t y.kind y.buffer text)) := by
  have hv (a b : Letter) (hp : (a, b) ∈ y.pairs (t.chart y.kind)) :
      y.verdictOn t rows (a, b) = Cycle.classify ⟨y.kind, y.buffer, a, b⟩ t (text a b) := by
    rw [verdictOn, hh.textOf_eq hp]
  obtain ⟨report, h⟩ := exists_report (t := t) hr fun (a, b) hp => by
    obtain ⟨ha, hb⟩ := mem_pairs.mp hp
    exact hv a b hp ▸ hc a b ha hb
  obtain ⟨entries, -, he⟩ := exists_entries (h workers)
  have hlookup : (fun a b => entries.lookup (a, b)) = verdictOf? t y.kind y.buffer text := by
    refine funext₂ fun a b => Option.ext fun v => ?_
    rw [← get?_reportOf y, ← he, get?_eq_some_iff (h workers), verdictOf?_eq_some_iff, mem_pairs]
    exact and_congr_right fun hp => by rw [hv a b (mem_pairs.mpr hp)]
  rw [h workers, he, ← hlookup]
  rfl

theorem get?_congr {workers' : Nat} {rows' : Grid} {report' : SheetReport}
    (h : y.validate t workers rows = .ok report) (h' : y.validate t workers' rows' = .ok report')
    (htext : (a, b) ∈ y.pairs (t.chart y.kind) →
      y.textOf (t.chart y.kind) rows' (a, b) = y.textOf (t.chart y.kind) rows (a, b)) :
    report'.get? a b = report.get? a b := by
  refine Option.ext fun v => ?_
  rw [get?_eq_some_iff h', get?_eq_some_iff h]
  exact and_congr_right fun hp => by rw [verdictOn, verdictOn, htext hp]

/-- A changed cell is seen in the verdict on its own pair at most. -/
theorem place_of_get?_ne {workers' i j : Nat} {s : String} {report' : SheetReport}
    (h : y.validate t workers rows = .ok report)
    (h' : y.validate t workers' (rows.modify i fun r => r.set j s) = .ok report')
    (hne : report'.get? a b ≠ report.get? a b) : (a, b) ∈ y.pairs (t.chart y.kind) ∧
      i = y.headerCount + y.rank (t.chart y.kind) b ∧ j = y.headerCount + y.rank (t.chart y.kind) a := by
  by_contra hn
  refine hne (get?_congr h h' fun hp => ?_)
  rw [textOf, textOf, textAt?_modify fun hij => hn ⟨hp, hij⟩]

/-- Every cell that is read is in the sheet. The report is that on the texts of the pairs of targets, in every layout
and whatever the other cells hold, and a change of one cell is seen at most in the verdict on its pair. -/
theorem validate_texts {scheme : Scheme} {t : Lettering} (ht : Lettering.build scheme = .ok t) :
    (∀ (y : Layout) (rows : Grid), y.HasShape rows → ∀ target1 col target2 row,
      (target1, col) ∈ y.slots (t.chart y.kind) → (target2, row) ∈ y.slots (t.chart y.kind) →
      col = y.rank (t.chart y.kind) target1 ∧ row = y.rank (t.chart y.kind) target2 ∧
        (y.textAt? rows row col).isSome) ∧
    (∀ (kind : PieceKind) (buffer : Letter) (text : Letter → Letter → String),
      (∀ a b, (t.chart kind).areRelated buffer a = false → (t.chart kind).areRelated buffer b = false →
        ∃ v, Cycle.classify ⟨kind, buffer, a, b⟩ t (text a b) = .ok v) →
      ∃ report : SheetReport,
        (∀ a b, report.get? a b = none ↔
          (t.chart kind).areRelated buffer a ∨ (t.chart kind).areRelated buffer b) ∧
        (∀ a b v, report.get? a b = some v → Cycle.classify ⟨kind, buffer, a, b⟩ t (text a b) = .ok v) ∧
        ∀ headers keeps, let y : Layout := ⟨buffer, kind, headers, keeps⟩
          (∃ rows, y.HasShape rows ∧ y.Holds (t.chart kind) rows text) ∧
          ∀ rows workers, y.HasShape rows → y.Holds (t.chart kind) rows text →
            y.validate t workers rows = .ok report) ∧
    ∀ (y : Layout) (rows : Grid) (workers i j : Nat) (s : String) (report report' : SheetReport),
      y.validate t workers rows = .ok report →
      y.validate t workers (rows.modify i fun r => r.set j s) = .ok report' →
      ∀ a b, report'.get? a b ≠ report.get? a b →
        (i = y.headerCount + y.rank (t.chart y.kind) b ∧ j = y.headerCount + y.rank (t.chart y.kind) a) ∧
        ∀ a' b', report'.get? a' b' ≠ report.get? a' b' → a' = a ∧ b' = b := by
  refine ⟨fun y rows hr target1 col target2 row h₁ h₂ => ?_, fun kind buffer text hc => ?_,
    fun y rows workers i j s report report' h h' a b hne => ?_⟩
  · obtain ⟨hk, hchecked⟩ := Lettering.build_checked ht y.kind
    obtain ⟨ha, rfl⟩ := mem_slots.mp h₁
    obtain ⟨hb, rfl⟩ := mem_slots.mp h₂
    exact ⟨rfl, rfl, hr.isSome_textAt? hchecked hk ha hb⟩
  · obtain ⟨hk, hchecked⟩ := Lettering.build_checked ht kind
    refine ⟨.ofFn buffer kind (verdictOf? t kind buffer text), fun a b => ?_, fun a b v hv => ?_,
      fun headers keeps => ⟨⟨_, hasShape_fill hchecked hk text, holds_fill _ text⟩, fun rows workers hr hh =>
        validate_of_holds hr hh hc workers⟩⟩
    · rw [SheetReport.get?_ofFn, verdictOf?_eq_none_iff (hc a b)]
    · rw [SheetReport.get?_ofFn] at hv
      exact (verdictOf?_eq_some_iff.mp hv).2
  · obtain ⟨hp, hi, hj⟩ := place_of_get?_ne h h' hne
    refine ⟨⟨hi, hj⟩, fun a' b' hne' => ?_⟩
    obtain ⟨hp', hi', hj'⟩ := place_of_get?_ne h h' hne'
    obtain ⟨ha, hb⟩ := mem_pairs.mp hp
    obtain ⟨ha', hb'⟩ := mem_pairs.mp hp'
    exact ⟨(rank_inj ha' ha).mp (Nat.add_left_cancel (hj'.symm.trans hj)),
      (rank_inj hb' hb).mp (Nat.add_left_cancel (hi'.symm.trans hi))⟩

/-- One comm in all cells of two sheets of different layouts. -/
theorem validate_texts_commutator : ∃ t rows rows' report, Lettering.build .speffz = .ok t ∧
    (∀ a b, t.corners.areRelated 2 a = false → t.corners.areRelated 2 b = false →
      ∃ v, Cycle.classify ⟨.corner, 2, a, b⟩ t "[R U R', D]" = .ok v) ∧
    HasShape ⟨2, .corner, false, false⟩ rows ∧ HasShape ⟨2, .corner, true, true⟩ rows' ∧
    validate ⟨2, .corner, false, false⟩ t 1 rows = .ok report ∧
    validate ⟨2, .corner, true, true⟩ t 4 rows' = .ok report ∧
    report.get? 2 15 = none ∧ report.get? 15 11 = some .valid := by
  obtain ⟨t, ht, h⟩ := Outcome.exists_ok_of_any (x := Lettering.speffz)
    (P := fun t => decide (t.corners.areRelated 2 2 = true ∧ t.corners.areRelated 2 15 = false ∧
      t.corners.areRelated 2 11 = false) &&
      (Cycle.classify ⟨.corner, 2, 15, 11⟩ t "[R U R', D]").toOption.any fun v => v = .valid)
    (by decide +kernel)
  obtain ⟨h, hv⟩ := Bool.and_eq_true_iff.mp h
  obtain ⟨h₂, h₁₅, h₁₁⟩ := of_decide_eq_true h
  obtain ⟨v, hclass, hv⟩ := Outcome.exists_ok_of_any hv
  have hc (a b : Letter) (_ : t.corners.areRelated 2 a = false) (_ : t.corners.areRelated 2 b = false) :=
    Cycle.exists_classify ht ⟨.corner, 2, a, b⟩ "[R U R', D]"
  obtain ⟨-, hreport, -⟩ := validate_texts ht
  obtain ⟨report, hnone, hsome, hlayout⟩ := hreport .corner 2 (fun _ _ => "[R U R', D]") hc
  obtain ⟨⟨rows, hr, hh⟩, hrun⟩ := hlayout false false
  obtain ⟨⟨rows', hr', hh'⟩, hrun'⟩ := hlayout true true
  refine ⟨t, rows, rows', report, ht, hc, hr, hr', hrun rows 1 hr hh, hrun' rows' 4 hr' hh',
    (hnone 2 15).mpr (.inl h₂), ?_⟩
  obtain ⟨w, hw⟩ := Option.ne_none_iff_exists'.mp (mt (hnone 15 11).mp (by
    rintro (h | h)
    · exact absurd h (Bool.eq_false_iff.mp h₁₅)
    · exact absurd h (Bool.eq_false_iff.mp h₁₁)))
  obtain rfl := Except.ok.inj ((hsome 15 11 w hw).symm.trans hclass)
  rw [hw, of_decide_eq_true hv]

end Layout
end Blindfold
