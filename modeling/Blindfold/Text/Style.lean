/-!
# Styled text

Terminal codes around a text; each code is undone after it.
-/

namespace Blindfold.Text

/-- A text between the codes that switch a style on and off. -/
def styled (on off : Nat) (text : String) : String :=
  s!"\x1b[{on}m{text}\x1b[{off}m"

def bold : String → String := styled 1 0

def red : String → String := styled 31 39

def green : String → String := styled 32 39

end Blindfold.Text
