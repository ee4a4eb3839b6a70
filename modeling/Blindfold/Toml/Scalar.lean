import Blindfold.Text.Numeral
import Blindfold.Toml.Gap
import Blindfold.Toml.Value

/-!
# Numbers, booleans, dates and times

These are words without quotes. A number is taken if its beginning shows what kind of number it is; whether
it can be read is found out apart from that. Integers are read up to 128 bits, and numbers with a fraction
or an exponent up to the largest finite double.
-/

namespace Blindfold.Toml.Scalar

open Text (Reader)
open Text.Reader

def isDigitOf (base : Nat) (c : Char) : Bool := (Text.digitValue? base c).isSome

/-- A sign, if there is one, and what follows it. -/
def splitSign : List Char → Option Char × List Char
  | '+' :: rest => (some '+', rest)
  | '-' :: rest => (some '-', rest)
  | cs => (none, cs)

/-! ## Underscores -/

/-- Every underscore comes after a digit and before one, in a text that may itself come after a digit. -/
def underscoresFitAfter (isDigit : Char → Bool) : (afterDigit : Bool) → List Char → Bool
  | _, [] => true
  | afterDigit, '_' :: rest =>
    afterDigit && rest.head?.any isDigit && underscoresFitAfter isDigit false rest
  | _, c :: rest => underscoresFitAfter isDigit (isDigit c) rest

/-- Every underscore comes after a digit and before one. -/
def underscoresFit (isDigit : Char → Bool) (cs : List Char) : Bool :=
  underscoresFitAfter isDigit false cs

def withoutUnderscores (cs : List Char) : List Char := cs.filter (· != '_')

/-! ## Integers -/

def numberIf (isReadable : Bool) : Value := if isReadable then .scalar else .unreadable

/-- An integer in a base that its first two characters name, given by the rest. The rest may be empty, but
then the integer is unreadable. -/
def basedInteger? (base : Nat) (cs : List Char) : Option Value :=
  let digits := withoutUnderscores cs
  if digits.all (isDigitOf base) && underscoresFit (isDigitOf base) cs then
    some (numberIf ((Text.digits? base digits).any (· < Nat.pow 2 128)))
  else none

/-- A zero that is followed by anything. -/
def hasLeadingZero : List Char → Bool
  | '0' :: _ :: _ => true
  | _ => false

/-- What may follow the first digits of a decimal integer. After an underscore everything but a space may,
and the integer is unreadable if it is no digit. -/
def isIntegerTail : List Char → Bool
  | [] => true
  | '_' :: rest => ! rest.contains ' '
  | _ => false

/-- A decimal integer after its sign. Next to an underscore the digits of every base count. -/
def decimalInteger? (sign : Option Char) (cs : List Char) : Option Value :=
  if ! cs.isEmpty && ! hasLeadingZero cs && isIntegerTail (cs.dropWhile Char.isDigit) &&
      underscoresFit (isDigitOf 16) cs then
    let isInRange (n : Nat) : Bool := if sign = some '-' then n ≤ Nat.pow 2 127 else n < Nat.pow 2 128
    some (numberIf ((Text.digits? 10 (withoutUnderscores cs)).any isInRange))
  else none

/-! ## Fractions and exponents -/

/-- The least number that is rounded to infinity when it is read as a double. -/
def doubleBound : Nat := Nat.pow 2 1024 - Nat.pow 2 970

/-- Whether `m` times ten to the power `e` is finite as a double. -/
def isFinite (m : Nat) (e : Int) : Bool :=
  if m = 0 then true
  else if 0 ≤ e then e < 400 && m * Nat.pow 10 e.toNat < doubleBound
  else
    let shift := (-e).toNat
    (toString m).length < shift || m < doubleBound * Nat.pow 10 shift

def natOf (digits : List Char) : Nat := (Text.digits? 10 digits).getD 0

def exponent : Reader Int := do
  let _ ← satisfy fun c => c == 'e' || c == 'E'
  let sign ← opt (satisfy fun c => c == '+' || c == '-')
  let n := natOf (← takeSome Char.isDigit)
  return if sign = some '-' then -n else n

/-- Takes a number with a fraction, an exponent or both, as its digits before and after the point and its
exponent. -/
def decimal : Reader (List Char × List Char × Int) := do
  let whole ← takeSome Char.isDigit
  let fraction ← opt (exactly ['.'] *> takeSome Char.isDigit)
  let power ← opt exponent
  return (whole, fraction.getD [], power.getD 0)

/-- A point or the mark of an exponent. -/
def isFractionMark (c : Char) : Bool := c == '.' || c == 'e' || c == 'E'

/-- A number with a fraction or an exponent, after its sign. -/
def fractional? (cs : List Char) : Option Value := do
  let (whole, fraction, power) ← decimal.run? (withoutUnderscores cs)
  if hasLeadingZero whole || ! underscoresFit Char.isDigit cs then none
  else return numberIf (isFinite (natOf (whole ++ fraction)) (power - fraction.length))

def number? : List Char → Option Value
  | '0' :: 'x' :: rest => basedInteger? 16 rest
  | '0' :: 'o' :: rest => basedInteger? 8 rest
  | '0' :: 'b' :: rest => basedInteger? 2 rest
  | cs =>
    let (sign, rest) := splitSign cs
    if rest.any isFractionMark then fractional? rest else decimalInteger? sign rest

/-- The words for infinity and for what is no number. -/
def isSpecial (cs : List Char) : Bool :=
  let (_, rest) := splitSign cs
  rest == ['i', 'n', 'f'] || rest == ['n', 'a', 'n']

/-! ## Dates and times -/

/-- Takes a two-digit number from `low` to `high`. -/
def twoDigits (low high : Nat) : Reader Nat := do
  let n := natOf (← takeCount 2 Char.isDigit)
  if low ≤ n && n ≤ high then pure n else failure

def daysInMonth (year month : Nat) : Nat :=
  if month = 2 then
    if year % 4 = 0 ∧ (year % 100 ≠ 0 ∨ year % 400 = 0) then 29 else 28
  else if month = 4 ∨ month = 6 ∨ month = 9 ∨ month = 11 then 30
  else 31

def date : Reader Unit := do
  let year := natOf (← takeCount 4 Char.isDigit)
  exactly ['-']
  let month ← twoDigits 1 12
  exactly ['-']
  let _ ← twoDigits 1 (daysInMonth year month)

/-- Takes a time of day; the seconds may be left out and may have a fraction. -/
def time : Reader Unit := do
  let _ ← twoDigits 0 23
  exactly [':']
  let _ ← twoDigits 0 59
  let _ ← opt do
    exactly [':']
    let _ ← twoDigits 0 60
    let _ ← opt (exactly ['.'] *> takeSome Char.isDigit)

/-- Takes an offset from universal time. -/
def offset : Reader Unit :=
  (do let _ ← satisfy fun c => c == 'Z' || c == 'z') <|> (do
    let _ ← satisfy fun c => c == '+' || c == '-'
    let _ ← twoDigits 0 23
    exactly [':']
    let _ ← twoDigits 0 59)

/-- Takes what may stand between a date and a time. -/
def dateTimeMark : Reader Unit := do
  let _ ← satisfy fun c => c == 'T' || c == 't' || c == ' '

/-- A date, a time of day, or a date with a time and perhaps an offset. -/
def isDateTime (cs : List Char) : Bool :=
  (run? time cs).isSome || (run? date cs).isSome ||
    (run? (do date; dateTimeMark; time; let _ ← opt offset) cs).isSome

/-! ## Words -/

def ofWord? (cs : List Char) : Option Value :=
  if cs == "true".toList || cs == "false".toList || isSpecial cs || isDateTime cs then some .scalar
  else number? cs

/-- The characters that end a word. -/
def marks : List Char := ['=', ',', '[', ']', '\x7b', '\x7d', '#', ' ', '\t', '\n', '\r']

def chunk : Reader (List Char) := takeSome fun c => ! marks.contains c

/-- Takes a word. Blanks are part of it if more follows on the line, as between a date and a time. -/
def word : Reader (List Char) := do
  let first ← chunk
  let more ← many do
    let blanks ← takeSome isSpace
    return blanks ++ (← chunk)
  return first ++ more.flatten

/-- Takes a number, a boolean, a date or a time. -/
def value : Reader Value := do
  match ofWord? (← word) with
  | some v => return v
  | none => failure

end Blindfold.Toml.Scalar
