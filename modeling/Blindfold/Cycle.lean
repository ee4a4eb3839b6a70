import Blindfold.Cube.Wiring
import Blindfold.Lettering.Report
import Blindfold.Verdict

/-!
# Checking comms

A comm is checked against the cycle `buffer → target1 → target2 → buffer` of pieces of one kind. It is run
on the solved cube, and the two reports decide.
-/

namespace Blindfold

structure Cycle where
  kind : PieceKind
  buffer : Letter
  target1 : Letter
  target2 : Letter
deriving DecidableEq, Repr

namespace Cycle

/-- The letter's piece takes no part in the cycle. -/
def isBystander (cycle : Cycle) (t : Chart) (l : Letter) : Bool :=
  ! [cycle.buffer, cycle.target1, cycle.target2].any (t.areRelated · l)

def isShownBy (cycle : Cycle) (r : Report) : Bool :=
  r.get cycle.target1 = cycle.buffer && r.get cycle.target2 = cycle.target1 &&
    r.get cycle.buffer = cycle.target2

/-- The verdict from the reports of the cycle's kind of pieces and of the other kind. -/
def judge (cycle : Cycle) (t : Chart) (own other : Report) : Verdict :=
  if ! other.isIdentity || Letter.all.any fun l => cycle.isBystander t l && ! own.isFixed l then
    .disruptsOtherPieces
  else if cycle.isShownBy own then .valid
  else .incorrectCycle

/-- The verdict on moves done on the solved cube. The report of the other kind is read first. -/
def check (cycle : Cycle) (t : Lettering) (s : Sequence) : Except LabelError Verdict := do
  let c := Cube.solved.run s
  let other ← (t.chart cycle.kind.other).report c
  let own ← (t.chart cycle.kind).report c
  return cycle.judge (t.chart cycle.kind) own other

/-- The verdict on the text of a cell. A cell whose targets are on one piece should be empty. -/
def classify (cycle : Cycle) (t : Lettering) (cell : String) : Except LabelError Verdict :=
  let empty := Text.isAllBlank cell.toList
  if (t.chart cycle.kind).areRelated cycle.target1 cycle.target2 then
    .ok (if empty then .valid else .shouldBeEmpty)
  else if empty then .ok .unexpectedEmpty
  else match Comm.parse cell with
    | .ok comm => cycle.check t comm.expand
    | .error e => .ok (.ofError e)

end Cycle
end Blindfold
