import Blindfold.Cycle
import Blindfold.Sheet.Layout
import Blindfold.Sheet.Report

/-!
# Validating sheets

The cells are shared out among workers in equal runs. Each worker stops at its first error and the runs are
put together in order, so the number of workers makes no difference.
-/

namespace Blindfold

inductive SheetError where
  | shape (e : ShapeError)
  | lettering (e : LabelError)
deriving DecidableEq, Repr

def SheetError.message : SheetError → String
  | shape e => e.message
  | lettering e => e.message

namespace Batch

/-- Runs of `size` elements, the last one possibly shorter. -/
def chunks {α : Type} (size : Nat) : List α → List (List α)
  | [] => []
  | x :: xs => (x :: xs.take (size - 1)) :: chunks size (xs.drop (size - 1))
termination_by xs => xs.length
decreasing_by
  simp only [List.length_drop, List.length_cons]
  omega

/-- The length of a run that shares out `count` elements. -/
def chunkSize (count workers : Nat) : Nat := max 1 ((count + workers - 1) / workers)

def mapRun {α β ε : Type} (f : α → Except ε β) (xs : List α) : Except ε (List β) := xs.mapM f

/-- Maps runs side by side and puts the results together; the first error in order wins. A single worker
needs no task of its own. -/
def mapShared {α β ε : Type} (workers : Nat) (f : α → Except ε β) (xs : List α) :
    Except ε (List β) :=
  if workers ≤ 1 then mapRun f xs
  else
    let runs := (chunks (chunkSize xs.length workers) xs).map fun run =>
      Task.spawn fun _ => mapRun f run
    (runs.mapM Task.get).map List.flatten

end Batch

namespace Layout

/-- The verdict on one cell, with its targets. -/
def classify (y : Layout) (t : Lettering) (cell : Cell) :
    Except LabelError ((Letter × Letter) × Verdict) := do
  let cycle : Cycle :=
    { kind := y.kind, buffer := y.buffer, target1 := cell.target1, target2 := cell.target2 }
  return ((cell.target1, cell.target2), ← cycle.classify t cell.text)

def reportOf (y : Layout) (entries : List ((Letter × Letter) × Verdict)) : SheetReport where
  buffer := y.buffer
  kind := y.kind
  verdicts := Vector.ofFn fun a => Vector.ofFn fun b => entries.lookup (a, b)

@[simp]
theorem get?_reportOf (y : Layout) (entries : List ((Letter × Letter) × Verdict)) (a b : Letter) :
    (y.reportOf entries).get? a b = entries.lookup (a, b) := by
  simp [reportOf, SheetReport.get?]

/-- Validates a sheet. Its shape is checked before any cell is looked at. -/
def validate (y : Layout) (t : Lettering) (workers : Nat) (rows : Grid) :
    Except SheetError SheetReport := do
  (y.checkShape rows).mapError .shape
  let cells := y.cells (t.chart y.kind) rows
  let entries ← (Batch.mapShared workers (y.classify t) cells).mapError .lettering
  return y.reportOf entries

end Layout
end Blindfold
