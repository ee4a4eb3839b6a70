import Blindfold.Sheet.Report
import Blindfold.Text.Style

/-!
# Listing the problems of a sheet

Each group of problems is printed as a heading, an underline and one line for each pair of targets.
-/

namespace Blindfold

/-- A pair of targets in upper case. -/
def pairText (pair : Letter × Letter) : String :=
  String.ofList [pair.1.toChar.toUpper, pair.2.toChar.toUpper]

namespace VerdictGroup

/-- The heading, the underline and the pairs. -/
def lines (group : VerdictGroup) : List String :=
  let title := group.1.title
  [Text.red (Text.bold title), "".pushn '_' title.length] ++ group.2.map pairText

/-- The lines and a blank one. -/
def listing (group : VerdictGroup) : String :=
  String.join ((group.lines ++ [""]).map (· ++ "\n"))

def listings (groups : List VerdictGroup) : String := String.join (groups.map listing)

/-- The size of a group with its title in lower case. -/
def summary (group : VerdictGroup) : String :=
  s!"{group.2.length} {group.1.title.map Char.toLower}"

end VerdictGroup

namespace SheetReport

/-- What is printed about a sheet: its problems, or that it has none. -/
def listing (r : SheetReport) (ignoreEmpty : Bool) : String :=
  let problems := r.problems ignoreEmpty
  if problems.isEmpty then
    Text.green s!"Every {r.kind.name} comm for buffer {r.buffer.toChar} is valid" ++ "\n"
  else
    let summary := ", ".intercalate (problems.map VerdictGroup.summary)
    VerdictGroup.listings problems ++ s!"{r.count .valid} valid, {summary}\n"

end SheetReport
end Blindfold
