/-!
# Readers

A reader takes something off the front of a text or fails. `<|>` tries a second reader on the same text.
-/

namespace Blindfold.Text

/-- Takes a value off the front of a text. -/
abbrev Reader (α : Type) := StateT (List Char) Option α

namespace Reader

def satisfy (p : Char → Bool) : Reader Char
  | c :: rest => if p c then some (c, rest) else none
  | [] => none

def exactly (cs : List Char) : Reader Unit := fun text =>
  if cs.isPrefixOf text then some ((), text.drop cs.length) else none

def takeWhile (p : Char → Bool) : Reader (List Char) := fun text => some (text.span p)

def takeSome (p : Char → Bool) : Reader (List Char) := do
  let cs ← takeWhile p
  if cs.isEmpty then failure else pure cs

/-- Takes a given number of characters that satisfy `p`. -/
def takeCount (n : Nat) (p : Char → Bool) : Reader (List Char) := fun text =>
  let cs := text.take n
  if cs.length = n ∧ cs.all p then some (cs, text.drop n) else none

/-- Succeeds at the end of the text only. -/
def atEnd : Reader Unit
  | [] => some ((), [])
  | _ :: _ => none

/-- The reader's value if it succeeds; nothing is taken otherwise. -/
def opt {α : Type} (r : Reader α) : Reader (Option α) := fun text =>
  match r text with
  | some (a, rest) => some (some a, rest)
  | none => some (none, text)

/-- Takes at most `limit` values. -/
def upTo {α : Type} (r : Reader α) : (limit : Nat) → Reader (List α)
  | 0 => pure []
  | limit + 1 => do
    match ← opt r with
    | some a => return a :: (← upTo r limit)
    | none => return []

/-- Takes values until the reader fails. As each takes a character, the length of the text limits their
number. -/
def many {α : Type} (r : Reader α) : Reader (List α) := fun text => upTo r text.length text

/-- Takes values between which there are separators. -/
def sepBy {α : Type} (r : Reader α) (separator : Reader Unit) : Reader (List α) := do
  match ← opt r with
  | some a => return a :: (← many (separator *> r))
  | none => return []

/-- The value of the whole text. -/
def run? {α : Type} (r : Reader α) (text : List Char) : Option α :=
  (r text).bind fun (a, rest) => if rest.isEmpty then some a else none

end Reader
end Blindfold.Text
