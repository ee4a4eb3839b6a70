/-!
# Comma-separated records

Records end at a line feed or a carriage return, and lines without a field are no records, so that the two
together end one record. A field is quoted only if a quote is its very first symbol; a quote inside it is
then written twice. What follows the closing quote is kept as it is. The text is read symbol by symbol;
symbols are characters or bytes.

Files are read by a library for such records, which is no part of this development. What is written down here is the
dialect that is assumed of it, and all that is proved of sheet files rests on this assumption.
-/

namespace Blindfold.Csv

/-- The symbols that structure a text. -/
class Alphabet (α : Type) where
  comma : α
  quote : α
  lineFeed : α
  carriageReturn : α
  /-- What may stand before the first record and is no part of it. -/
  byteOrderMark : List α

instance : Alphabet Char where
  comma := ','
  quote := '"'
  lineFeed := '\n'
  carriageReturn := '\r'
  byteOrderMark := ['\uFEFF']

instance : Alphabet UInt8 where
  comma := 0x2C
  quote := 0x22
  lineFeed := 0x0A
  carriageReturn := 0x0D
  byteOrderMark := [0xEF, 0xBB, 0xBF]

abbrev Record (α : Type) := List (List α)

/-- What the next symbol is read as. -/
inductive Place where
  /-- The first symbol of a record. -/
  | recordStart
  | fieldStart
  /-- A symbol of a field that is not quoted, or after its closing quote. -/
  | plain
  /-- A symbol between quotes. -/
  | quoted
  /-- The symbol after a quote that may be doubled. -/
  | afterQuote
deriving DecidableEq, Repr

/-- What has been read; the lists grow at the front. -/
structure Reader (α : Type) where
  place : Place
  field : List α
  fields : Record α
  records : List (Record α)

namespace Reader

variable {α : Type}

def start : Reader α := ⟨.recordStart, [], [], []⟩

def push (r : Reader α) (place : Place) (x : α) : Reader α :=
  { r with place, field := x :: r.field }

def endField (r : Reader α) : Reader α :=
  { r with place := .fieldStart, field := [], fields := r.field.reverse :: r.fields }

def endRecord (r : Reader α) : Reader α :=
  ⟨.recordStart, [], [], (r.field.reverse :: r.fields).reverse :: r.records⟩

variable [DecidableEq α] [Alphabet α]

def isLineEnd (x : α) : Bool := x = Alphabet.lineFeed || x = Alphabet.carriageReturn

def readPlain (r : Reader α) (x : α) : Reader α :=
  if x = Alphabet.comma then r.endField
  else if isLineEnd x then r.endRecord
  else r.push .plain x

def readFirst (r : Reader α) (x : α) : Reader α :=
  if x = Alphabet.quote then { r with place := .quoted } else r.readPlain x

def read (r : Reader α) (x : α) : Reader α :=
  match r.place with
  | .recordStart => if isLineEnd x then r else r.readFirst x
  | .fieldStart => r.readFirst x
  | .plain => r.readPlain x
  | .quoted => if x = Alphabet.quote then { r with place := .afterQuote } else r.push .quoted x
  | .afterQuote => if x = Alphabet.quote then r.push .quoted x else r.readPlain x

/-- All records; the end of the text ends a record that is under way. -/
def finish (r : Reader α) : List (Record α) :=
  match r.place with
  | .recordStart => r.records.reverse
  | _ => r.endRecord.records.reverse

end Reader

variable {α : Type} [DecidableEq α] [Alphabet α]

/-- The text after its byte order mark, if it has one. -/
def dropMark (xs : List α) : List α :=
  if (Alphabet.byteOrderMark : List α).isPrefixOf xs then
    xs.drop (Alphabet.byteOrderMark : List α).length
  else xs

def records (xs : List α) : List (Record α) :=
  ((dropMark xs).foldl Reader.read .start).finish

end Blindfold.Csv
