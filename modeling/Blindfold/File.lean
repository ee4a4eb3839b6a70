/-!
# Files

A program reads files through a function that may fail, so that the functions that use it can be stated
over any monad.
-/

namespace Blindfold

inductive FileFault where
  | missing
  | isDirectory
  | notDirectory
  /-- The bytes are no UTF-8. -/
  | notText
  /-- Any other fault, in the words of the system. -/
  | other (text : String)
deriving DecidableEq, Repr

def FileFault.message : FileFault → String
  | missing => "No such file or directory (os error 2)"
  | isDirectory => "Is a directory (os error 21)"
  | notDirectory => "Not a directory (os error 20)"
  | notText => "stream did not contain valid UTF-8"
  | other text => text

abbrev FileReader (m : Type → Type) := String → m (Except FileFault ByteArray)

/-- The text that bytes encode. -/
def decodeText (bytes : ByteArray) : Except FileFault String :=
  match String.fromUTF8? bytes with
  | some text => .ok text
  | none => .error .notText

def FileReader.text {m : Type → Type} [Monad m] (files : FileReader m) (path : String) :
    m (Except FileFault String) := do
  return (← files path).bind decodeText

end Blindfold
