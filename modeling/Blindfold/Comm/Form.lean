import Blindfold.Comm.Bracket

/-!
# The form of a comm text

`Form.ofText` decides which form a text without outer brackets has and cuts it into the parts that are
read on their own. The forms are tried in a fixed order: plain moves, a double, `:`, `,`, `/`, groups side
by side. Every part is shorter than the text.
-/

namespace Blindfold

/-- How a text splits into parts that are comms themselves. -/
inductive Form where
  | plain
  /-- `(body)2`. -/
  | double (body : List Char)
  /-- `setup : nested`. -/
  | conjugate (setup nested : List Char)
  /-- `first , second`. -/
  | commutator (first second : List Char)
  /-- `setup / slice`. -/
  | slash (setup slice : List Char)
  /-- Groups and runs of moves side by side. -/
  | sideBySide (parts : List (List Char))
  | malformed
deriving DecidableEq, Repr

namespace Form

/-- The characters that keep a text from being plain moves. -/
def marks : List Char := [',', ':', '[', ']', '(', ')', '/']

def isPlain (cs : List Char) : Bool := cs.all fun c => ! marks.contains c

/-- What stands between `(` at the very beginning and `)2` at the very end. -/
def doubleBody? : List Char → Option (List Char)
  | '(' :: rest =>
    match rest.reverse with
    | '2' :: ')' :: body => some body.reverse
    | _ => none
  | _ => none

/-- A turn cannot follow a group. -/
def startsWithTurn (cs : List Char) : Bool :=
  match Text.trimStart cs with
  | '2' :: _ => true
  | '\'' :: _ => true
  | _ => false

/-- The form of a text without outer brackets. -/
def ofText (cs : List Char) : Form :=
  if isPlain cs then .plain
  else if let some body := doubleBody? cs then .double body
  else if let some (setup, nested) := Bracket.splitAt? ':' 0 cs then .conjugate setup nested
  else if let some (first, second) := Bracket.splitAt? ',' 0 cs then .commutator first second
  else if let some (setup, slice) := Bracket.splitAt? '/' 0 cs then .slash setup slice
  else
    let parts := Bracket.segments cs
    if 2 ≤ parts.length ∧ ! parts.any startsWithTurn then .sideBySide parts else .malformed

/-- The parts that are read on their own, in order. -/
def parts : Form → List (List Char)
  | plain => []
  | double body => [body]
  | conjugate setup nested => [setup, nested]
  | commutator first second => [first, second]
  | slash setup slice => [setup, slice]
  | sideBySide parts => parts
  | malformed => []

theorem length_doubleBody? {cs body : List Char} (h : doubleBody? cs = some body) :
    body.length + 3 = cs.length := by
  unfold doubleBody? at h
  split at h
  · rename_i rest
    split at h
    · rename_i body' hr
      cases h
      have := congrArg List.length hr
      simp only [List.length_reverse, List.length_cons] at this ⊢
      omega
    · cases h
  · cases h

theorem length_lt_of_mem_parts {cs part : List Char} (h : part ∈ (ofText cs).parts) :
    part.length < cs.length := by
  have split {mark : Char} {before after : List Char}
      (hs : Bracket.splitAt? mark 0 cs = some (before, after)) (hp : part = before ∨ part = after) :
      part.length < cs.length := by
    have := congrArg List.length (Bracket.splitAt?_eq_append hs)
    simp only [List.length_append, List.length_cons] at this
    rcases hp with rfl | rfl <;> omega
  unfold ofText at h
  split at h
  · simp [parts] at h
  · split at h
    · rename_i body hb
      have := length_doubleBody? hb
      simp only [parts, List.mem_singleton] at h
      subst h
      omega
    · split at h
      · rename_i hs
        exact split hs (by simpa [parts] using h)
      · split at h
        · rename_i hs
          exact split hs (by simpa [parts] using h)
        · split at h
          · rename_i hs
            exact split hs (by simpa [parts] using h)
          · dsimp only at h
            split at h
            · rename_i hp
              exact Bracket.length_lt_of_mem_segments hp.1 h
            · simp [parts] at h

end Form
end Blindfold
