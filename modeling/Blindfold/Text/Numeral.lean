/-!
# Unsigned numerals

A numeral is decimal with an optional plus sign, or hexadecimal after `0x`. Its value must be below a
given bound.
-/

namespace Blindfold.Text

/-- The value of a digit in a base up to 16; both cases of the letters count. -/
def digitValue? (base : Nat) (c : Char) : Option Nat :=
  let value? :=
    if c.isDigit then some (c.toNat - 48)
    else if 97 ≤ c.toNat && c.toNat ≤ 102 then some (c.toNat - 87)
    else if 65 ≤ c.toNat && c.toNat ≤ 70 then some (c.toNat - 55)
    else none
  value?.filter (· < base)

/-- The number that a non-empty list of digits denotes. -/
def digits? (base : Nat) (cs : List Char) : Option Nat :=
  if cs.isEmpty then none
  else cs.foldlM (fun value c => (digitValue? base c).map (base * value + ·)) 0

/-- Digits after an optional plus sign. -/
def unsigned? (base bound : Nat) (cs : List Char) : Option Nat :=
  let body := match cs with
    | '+' :: rest => rest
    | _ => cs
  (digits? base body).filter (· < bound)

/-- The largest count a numeral may denote, plus one. -/
def wordBound : Nat := Nat.pow 2 64

def count? (cs : List Char) : Option Nat := unsigned? 10 wordBound cs

/-- A count that may also be written in hexadecimal. -/
def anyCount? : List Char → Option Nat
  | '0' :: 'x' :: rest => unsigned? 16 wordBound rest
  | cs => count? cs

end Blindfold.Text
