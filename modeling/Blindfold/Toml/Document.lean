import Blindfold.Toml.QuotedText
import Blindfold.Toml.Scalar

/-!
# Settings documents

A document is a list of lines: pairs, headers, comments and blank lines. `Document.parse?` puts the pairs
and headers together into one table.
-/

namespace Blindfold.Toml

open Text (Reader)
open Text.Reader

/-- How deep values may nest, and how many parts a key may have. -/
def depthLimit : Nat := 80

/-! ## Keys -/

def isKeyChar (c : Char) : Bool := c.isAlphanum || c == '_' || c == '-'

def keyPart : Reader String := do
  return String.ofList (← takeSome isKeyChar <|> QuotedText.key)

def dot : Reader Unit := spaces *> exactly ['.'] *> spaces

/-- Takes a dotted key, as its path and its last part. -/
def dottedKey : Reader (List String × String) := do
  let parts ← sepBy keyPart dot
  match parts.getLast? with
  | some key => if parts.length ≤ depthLimit then return (parts.dropLast, key) else failure
  | none => failure

/-- Takes a key, an equals sign and a value, with given blanks around the sign. -/
def pairOf (blanks : Reader Unit) (value : Reader Value) : Reader Pair := do
  let (path, key) ← dottedKey
  blanks *> exactly ['='] *> blanks
  return { path, key, value := ← value }

/-! ## Values -/

/-- Takes elements between two marks, with commas between them; a comma may follow the last one. -/
def listOf {α : Type} (opening closing : Char) (element : Reader α) : Reader (List α) := do
  exactly [opening] *> gap
  let elements ← sepBy (element <* gap) (exactly [','] *> gap)
  if ! elements.isEmpty then
    let _ ← opt (exactly [','] *> gap)
  exactly [closing]
  return elements

def arrayOf (value : Reader Value) : Reader Value := do
  return .array (← listOf '[' ']' value)

/-- Takes a table between braces, in which a pair may go over several lines. -/
def inlineTableOf (value : Reader Value) : Reader Value := do
  let pairs ← listOf '\x7b' '\x7d' (pairOf gap value)
  match Entries.addPairs [] pairs with
  | some entries => return .table .inlined entries
  | none => failure

/-- Takes a value in which arrays and tables nest to a given depth at most. -/
def nestedValue : (depth : Nat) → Reader Value
  | 0 => simple
  | depth + 1 => simple <|> arrayOf (nestedValue depth) <|> inlineTableOf (nestedValue depth)
where
  /-- Takes a text or another value without parts. -/
  simple : Reader Value := (do return .text (String.ofList (← QuotedText.value))) <|> Scalar.value

def value : Reader Value := nestedValue depthLimit

/-! ## Lines -/

/-- What stands on one line. -/
inductive Line where
  | pair (p : Pair)
  | header (isElement : Bool) (path : List String) (key : String)
  | blank

/-- Takes a header between single or double brackets. -/
def header : Reader Line := do
  let isElement := (← opt (exactly ['[', '['])).isSome
  if ! isElement then exactly ['[']
  let (path, key) ← spaces *> dottedKey <* spaces
  exactly (if isElement then [']', ']'] else [']'])
  return .header isElement path key

def line : Reader Line :=
  spaces *> (header <|> (do return .pair (← pairOf spaces value)) <|> pure .blank) <* spaces <* opt comment

def document : Reader (List Line) := do
  let _ ← opt (exactly ['\uFEFF'])
  let lines ← sepBy line (do let _ ← newline)
  atEnd
  return lines

/-- The pairs before the first header. -/
def leadingPairs : List Line → List Pair
  | .pair p :: rest => p :: leadingPairs rest
  | .blank :: rest => leadingPairs rest
  | _ => []

/-- The headers, each with the pairs below it. -/
def sections : List Line → List Section
  | .header isElement path key :: rest =>
    { isElement, path, key, pairs := leadingPairs rest } :: sections rest
  | _ :: rest => sections rest
  | [] => []

def parse? (text : String) : Option Entries := do
  let lines ← document.run? text.toList
  let root ← Entries.addPairs [] (leadingPairs lines)
  (sections lines).foldlM Entries.addSection root

end Blindfold.Toml
