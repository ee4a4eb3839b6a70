import Blindfold.Comm.Basic
import Blindfold.Comm.Form

/-!
# Reading comms

`Comm.read` strips the outer brackets of a text, looks at its form and reads the parts in order. The
first error wins.
-/

namespace Blindfold

inductive CommError where
  /-- The square brackets of a text do not match. -/
  | unbalanced (text : String)
  /-- A text, here without its outer brackets, has no form. -/
  | malformed (text : String)
  | illegalMove (e : IllegalMove)
deriving DecidableEq, Repr

namespace CommError

def message : CommError → String
  | unbalanced text => s!"Comm string '{text}' has unbalanced brackets"
  | malformed text =>
    s!"Comm string '{text}' isn't a sequence, commutator, conjugate, double, or slash comm"
  | illegalMove e => e.message

end CommError

namespace Comm

def readMoves (cs : List Char) : Except CommError Comm :=
  match Sequence.read cs with
  | .ok s => .ok (.moves s)
  | .error e => .error (.illegalMove e)

def read (cs : List Char) : Except CommError Comm :=
  if Bracket.isBalanced cs then
    match _h : Form.ofText (Bracket.stripOuter cs) with
    | .plain => readMoves (Bracket.stripOuter cs)
    | .double body => return .double (← read body)
    | .conjugate setup nested => return .conjugate (← read setup) (← read nested)
    | .commutator first second => return .commutator (← read first) (← read second)
    | .slash setup slice => return .slash (← read setup) (← read slice)
    | .sideBySide parts => return .sideBySide (← parts.attach.mapM fun ⟨part, _⟩ => read part)
    | .malformed => .error (.malformed (String.ofList (Bracket.stripOuter cs)))
  else .error (.unbalanced (String.ofList cs))
termination_by cs.length
decreasing_by
  all_goals
    refine Nat.lt_of_lt_of_le (Form.length_lt_of_mem_parts ?_) (Bracket.length_stripOuter_le cs)
    rw [_h]
    simp_all [Form.parts]

def parse (text : String) : Except CommError Comm := read text.toList

end Comm
end Blindfold
