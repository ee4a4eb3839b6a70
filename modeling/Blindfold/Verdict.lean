import Blindfold.Comm.Reading

/-!
# Verdicts

What is said about one comm or one cell of a sheet.
-/

namespace Blindfold

/-- A verdict, in the order in which sheets list them. -/
inductive Verdict where
  | unbalancedBrackets
  | illegalMove
  | parsingError
  /-- A piece outside the cycle is not left alone. -/
  | disruptsOtherPieces
  /-- Only the pieces of the cycle move, but not as they should. -/
  | incorrectCycle
  | unexpectedEmpty
  | shouldBeEmpty
  | valid
deriving DecidableEq, Repr

namespace Verdict

def all : List Verdict :=
  [unbalancedBrackets, illegalMove, parsingError, disruptsOtherPieces, incorrectCycle,
    unexpectedEmpty, shouldBeEmpty, valid]

/-- The place in `all`. -/
def index (v : Verdict) : Nat := all.idxOf v

def isValid (v : Verdict) : Bool := v = valid

/-- The heading under which cells with this verdict are listed. -/
def title : Verdict → String
  | unbalancedBrackets => "UNBALANCED BRACKETS"
  | illegalMove => "ILLEGAL MOVE"
  | parsingError => "PARSING ERROR"
  | disruptsOtherPieces => "DISRUPTS OTHER PIECES"
  | incorrectCycle => "INCORRECT CYCLE"
  | unexpectedEmpty => "UNEXPECTED EMPTY"
  | shouldBeEmpty => "SHOULD BE EMPTY"
  | valid => "VALID"

/-- The verdict on a text that is no comm. -/
def ofError : CommError → Verdict
  | .unbalanced _ => unbalancedBrackets
  | .malformed _ => parsingError
  | .illegalMove _ => illegalMove

end Verdict
end Blindfold
