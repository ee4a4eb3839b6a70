import Blindfold.Cli.Run

/-!
# The program

The command line in terms of the file system, a random seed and the terminal.
-/

namespace Blindfold

def systemFiles : FileReader IO := fun path => do
  match ← (IO.FS.readBinFile path).toBaseIO with
  | .ok bytes => return .ok bytes
  | .error (.noFileOrDirectory ..) => return .error .missing
  | .error e => return .error (.other (toString e))

def systemHost : Cli.Host IO where
  files := systemFiles
  seed := IO.rand 0 (Nat.pow 2 64 - 1)
  workers := 8

end Blindfold

def main (words : List String) : IO UInt32 := do
  let outcome ← Blindfold.Cli.run Blindfold.systemHost words
  IO.print outcome.output
  if ! outcome.complaint.isEmpty then IO.eprintln s!"Error: {outcome.complaint}"
  return outcome.exitCode.toUInt32
