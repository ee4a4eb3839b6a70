import Blindfold.Csv.Basic
import Blindfold.Text.Blank

/-!
# Reading records

A reader hands on the records of a text as its settings say. Without settings of its own it takes the first
record for a header, wants all records to be equally long and keeps every field as it is. Like the dialect, this is
what is assumed of the library that reads files; which settings it is given is up to the readers of sheets and of
label files.
-/

namespace Blindfold.Csv

/-- What a reader does with the records of a text. -/
structure Settings where
  /-- The first record names the columns and is not handed on. -/
  hasHeader : Bool := true
  /-- Records may be longer or shorter than the first one. -/
  isFlexible : Bool := false
  /-- The blanks at both ends of a field are left out. -/
  trims : Bool := false
deriving DecidableEq, Repr

namespace Settings

variable {α : Type}

def accepts (s : Settings) (rs : List (Record α)) : Bool :=
  s.isFlexible || rs.all (·.length = (rs.headD []).length)

def body (s : Settings) (rs : List (Record α)) : List (Record α) := if s.hasHeader then rs.tail else rs

def trimmed (s : Settings) (field : List Char) : List Char := if s.trims then Text.trim field else field

/-- The records that are handed on, every field as the text that it encodes. -/
def read? [DecidableEq α] [Alphabet α] (s : Settings) (decode? : List α → Option (List Char)) (xs : List α) :
    Option (List (List (List Char))) := do
  let rs := records xs
  guard (s.accepts rs)
  (s.body rs).mapM (·.mapM fun field => (decode? field).map s.trimmed)

end Settings
end Blindfold.Csv
