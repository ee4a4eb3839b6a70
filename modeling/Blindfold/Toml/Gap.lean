import Blindfold.Text.Reader

/-!
# What stands between

Blanks, line ends and comments.
-/

namespace Blindfold.Toml

open Text (Reader)
open Text.Reader

/-- A blank inside a line. -/
def isSpace (c : Char) : Bool := c == ' ' || c == '\t'

/-- A character that may not be written: a control character other than the tab. -/
def isControl (c : Char) : Bool := (c.toNat < 0x20 && c != '\t') || c.toNat == 0x7F

def newline : Reader (List Char) :=
  (exactly ['\n'] *> pure ['\n']) <|> (exactly ['\r', '\n'] *> pure ['\r', '\n'])

def spaces : Reader Unit := do let _ ← takeWhile isSpace

def comment : Reader Unit := do
  exactly ['#']
  let _ ← takeWhile fun c => ! isControl c

def gap : Reader Unit := do
  let _ ← many ((do let _ ← takeSome isSpace) <|> (do let _ ← newline) <|> comment)

end Blindfold.Toml
