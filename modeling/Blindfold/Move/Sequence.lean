import Blindfold.Move.Basic
import Blindfold.Text.Blank

/-!
# Sequences of moves

A sequence is written as moves with blanks between them. In a commented text `#` hides the rest of its
line.
-/

namespace Blindfold

/-- Moves to be done from left to right. -/
abbrev Sequence := List Move

structure IllegalMove where
  token : String
deriving DecidableEq, Repr

namespace IllegalMove

def message (e : IllegalMove) : String := s!"Move '{e.token}' is not supported"

end IllegalMove

namespace Move

/-- The move that a token names, or the token as an error. -/
def read (token : List Char) : Except IllegalMove Move :=
  match read? token with
  | some m => .ok m
  | none => .error ⟨String.ofList token⟩

def parse (text : String) : Except IllegalMove Move := read text.toList

/-- The canonical spelling as a string. -/
def toString (m : Move) : String := String.ofList m.text

end Move

namespace Sequence

/-- The sequence that undoes `s`: backwards, each move inverted. -/
def inverse (s : Sequence) : Sequence := s.reverse.map Move.inverse

/-- Reads tokens in order up to the first that names no move. -/
def ofTokens (tokens : List (List Char)) : Except IllegalMove Sequence := tokens.mapM Move.read

def read (cs : List Char) : Except IllegalMove Sequence := ofTokens (Text.words cs)

/-- The part of a line before its first `#`. -/
def codePart (line : List Char) : List Char := line.takeWhile (· != '#')

/-- Reads moves in a text with comments. -/
def readCommented (cs : List Char) : Except IllegalMove Sequence :=
  ofTokens ((Text.lines cs).flatMap fun line => Text.words (codePart line))

def parse (text : String) : Except IllegalMove Sequence := read text.toList

def parseCommented (text : String) : Except IllegalMove Sequence := readCommented text.toList

/-- The canonical text: moves with one space between them. -/
def text (s : Sequence) : List Char := [' '].intercalate (s.map Move.text)

def toString (s : Sequence) : String := String.ofList s.text

/-- The moves in the order of `Move.all`. -/
def sorted (s : Sequence) : Sequence := s.mergeSort Move.precedes

end Sequence
end Blindfold
