import Blindfold.Text.Numeral
import Blindfold.Toml.Gap

/-!
# Quoted text

Text between double quotes may hold escapes, text between single quotes holds none. Three quotes enclose
text of several lines.
-/

namespace Blindfold.Toml

open Text (Reader)
open Text.Reader

namespace QuotedText

def charOfCode? (n : Nat) : Option Char := if h : n.isValidChar then some (Char.ofNatAux n h) else none

/-- Takes a code of so many hexadecimal digits. -/
def code (digits : Nat) : Reader Char := do
  let cs ← takeCount digits fun c => (Text.digitValue? 16 c).isSome
  match (Text.digits? 16 cs).bind charOfCode? with
  | some c => return c
  | none => failure

def escaped : Reader Char := do
  match ← satisfy fun _ => true with
  | 'b' => return '\x08'
  | 't' => return '\t'
  | 'n' => return '\n'
  | 'f' => return '\x0c'
  | 'r' => return '\r'
  | 'e' => return '\x1b'
  | '"' => return '"'
  | '\\' => return '\\'
  | 'x' => code 2
  | 'u' => code 4
  | 'U' => code 8
  | _ => failure

/-- Takes a character of a text that the given quote ends. -/
def plainChar (quote : Char) : Reader Char := satisfy fun c => ! isControl c && c != quote

/-- Takes a character or an escape between double quotes. -/
def basicChar : Reader Char := (exactly ['\\'] *> escaped) <|> satisfy fun c =>
  ! isControl c && c != '"' && c != '\\'

def basic : Reader (List Char) := exactly ['"'] *> many basicChar <* exactly ['"']

def literal : Reader (List Char) := exactly ['\''] *> many (plainChar '\'') <* exactly ['\'']

/-- Takes one or two quotes that do not end the text. -/
def loneQuotes (quote : Char) : Reader (List Char) := do
  let quotes ← takeSome (· == quote)
  if quotes.length < 3 then pure quotes else failure

/-- Takes the three quotes that end a text, and up to two that belong to it before them. -/
def closingQuotes (quote : Char) : Reader (List Char) := do
  let quotes ← takeWhile (· == quote)
  if 3 ≤ quotes.length && quotes.length ≤ 5 then pure (quotes.drop 3) else failure

/-- Takes a backslash at the end of a line and the blanks and line ends after it. -/
def continuation : Reader (List Char) := do
  exactly ['\\']
  let _ ← takeWhile isSpace
  let _ ← newline
  let _ ← many ((do let _ ← takeSome isSpace) <|> (do let _ ← newline))
  return []

/-- Takes text of several lines; a line end right after the opening quotes is no part of it. -/
def lines (quote : Char) (piece : Reader (List Char)) : Reader (List Char) := do
  exactly [quote, quote, quote]
  let _ ← opt newline
  let pieces ← many (loneQuotes quote <|> newline <|> piece)
  let rest ← closingQuotes quote
  return pieces.flatten ++ rest

def basicLines : Reader (List Char) :=
  lines '"' (continuation <|> (do return [← basicChar]))

def literalLines : Reader (List Char) := lines '\'' (do return [← plainChar '\''])

/-- Takes text in any quotes. -/
def value : Reader (List Char) := basicLines <|> literalLines <|> basic <|> literal

/-- Takes text in quotes for a single line. -/
def key : Reader (List Char) := basic <|> literal

end QuotedText
end Blindfold.Toml
