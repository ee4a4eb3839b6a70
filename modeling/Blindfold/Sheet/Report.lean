import Blindfold.Verdict
import Blindfold.Lettering.Letter

/-!
# Sheet reports

The verdicts on all cells of a sheet, and the groups of targets with the same verdict.
-/

namespace Blindfold

/-- The verdict on every pair of targets; pairs with the buffer's piece have none. -/
structure SheetReport where
  buffer : Letter
  kind : PieceKind
  /-- The verdicts by first and then by second target. -/
  verdicts : Vector (Vector (Option Verdict) 24) 24
deriving DecidableEq, Repr

/-- Pairs of targets with one verdict. -/
abbrev VerdictGroup := Verdict × List (Letter × Letter)

namespace VerdictGroup

/-- Adds a pair to the group of its verdict. The groups stand in the order of their verdicts, and the pair starts a group
in its place when there is none. -/
def add (pair : Letter × Letter) (v : Verdict) : List VerdictGroup → List VerdictGroup
  | [] => [(v, [pair])]
  | group :: rest =>
    if group.1 = v then (v, group.2 ++ [pair]) :: rest
    else if v.index < group.1.index then (v, [pair]) :: group :: rest
    else group :: add pair v rest

/-- The groups of the other verdicts. -/
def remove (v : Verdict) (groups : List VerdictGroup) : List VerdictGroup := groups.filter (·.1 ≠ v)

end VerdictGroup

namespace SheetReport

def get? (r : SheetReport) (target1 target2 : Letter) : Option Verdict :=
  Letter.entry (Letter.entry r.verdicts target1) target2

/-- All verdicts, by first and then by second target. -/
def entries (r : SheetReport) : List ((Letter × Letter) × Verdict) :=
  Letter.all.flatMap fun a => Letter.all.filterMap fun b => (r.get? a b).map ((a, b), ·)

/-- The groups that are not empty, in the order of their verdicts. -/
def grouped (r : SheetReport) : List VerdictGroup :=
  r.entries.foldl (fun groups (pair, v) => VerdictGroup.add pair v groups) []

/-- The groups that need work. Empty cells can be passed over while a sheet is being filled in. -/
def problems (r : SheetReport) (ignoreEmpty : Bool) : List VerdictGroup :=
  let groups := VerdictGroup.remove .valid r.grouped
  if ignoreEmpty then VerdictGroup.remove .unexpectedEmpty groups else groups

def count (r : SheetReport) (v : Verdict) : Nat := r.entries.countP (·.2 = v)

end SheetReport
end Blindfold
