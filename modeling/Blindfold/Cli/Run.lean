import Blindfold.Cli.Command
import Blindfold.Cube.Net
import Blindfold.Cube.Orientation
import Blindfold.Move.Scramble
import Blindfold.Settings
import Blindfold.Sheet.Listing
import Blindfold.Sheet.File
import Blindfold.Sheet.Validation

/-!
# Running commands

A command reads files, and its result is an exit code with what is printed. Nothing is printed by a command
that fails.
-/

namespace Blindfold.Cli

/-- What a command needs from outside. -/
structure Host (m : Type → Type) where
  files : FileReader m
  /-- A seed for scrambles that are given none. -/
  seed : m Nat
  workers : Nat

structure Outcome where
  exitCode : Nat
  output : String
  complaint : String
deriving DecidableEq, Repr

namespace Outcome

def success (output : String) : Outcome := ⟨0, output, ""⟩

def failure (complaint : String) : Outcome := ⟨1, "", complaint⟩

def misuse (e : UsageError) : Outcome := ⟨2, "", e.message⟩

end Outcome

inductive RunError where
  | settings (e : SettingsError)
  | lettering (e : LabelError)
  | sheetFile (e : SheetFileError)
  | sheet (path : String) (e : SheetError)
  | comm (e : CommError)
  | illegalMove (e : IllegalMove)
  | unreadable (path : String) (fault : FileFault)
  /-- Neither moves nor a file are given. -/
  | noMoves
deriving DecidableEq, Repr

def RunError.message : RunError → String
  | settings e => e.message
  | lettering e => e.message
  | sheetFile e => e.message
  | sheet path e => s!"Failed to validate {path}: {e.message}"
  | comm e => e.message
  | illegalMove e => e.message
  | unreadable path fault => s!"Failed to read {path}: {fault.message}"
  | noMoves => "Give either a sequence or a file of moves"

def usage : String :=
  "Usage: commcheck [--config CONFIG] [-v] COMMAND\n\n" ++
  "check FILE -t TYPE [-b LETTER] [-r] [-e] [-i]     validate every comm of a sheet\n" ++
  "verify COMM TARGET1 TARGET2 -t TYPE [-b LETTER]   check one comm\n" ++
  "expand COMM                                       print the moves of a comm\n" ++
  "state [SEQUENCE | -f FILE]                        print the cube after moves\n" ++
  "scramble [-l LENGTH] [-a] [-s SEED]               print a random sequence\n"

def sequenceLine (s : Sequence) : String := s.toString ++ "\n"

/-- The title of a verdict, green if it is good. -/
def verdictLine (v : Verdict) : String :=
  (if v.isValid then Text.green v.title else Text.red v.title) ++ "\n"

/-- The net of a cube, and whether it is solved. -/
def cubeText (c : Cube) : String :=
  c.net ++ (if c.isSolved then Text.green "Solved" ++ "\n" else "")

variable {m : Type → Type} [Monad m]

/-- Goes on with a value, or fails for a given reason. -/
def orFail {α ε : Type} (reason : ε → RunError) : Except ε α → ExceptT RunError m α
  | .ok a => pure a
  | .error e => throw (reason e)

/-- The moves that are given directly, or those of a file with comments. -/
def givenMoves (host : Host m) : Option String → Option String → ExceptT RunError m Sequence
  | some moves, _ => orFail .illegalMove (Sequence.parse moves)
  | none, some file => do
    match ← host.files.text file with
    | .ok text => orFail .illegalMove (Sequence.parseCommented text)
    | .error fault => throw (.unreadable file fault)
  | none, none => throw .noMoves

def runCommand (host : Host m) (settings : Settings) : Command → ExceptT RunError m String
  | .check file kind buffer headers emptyBufferGroups ignoreEmpty => do
    let lettering ← (settings.lettering host.files).adapt .lettering
    let layout : Layout := {
      kind, buffer := settings.buffer kind buffer, hasHeaders := headers
      keepsBufferGroups := emptyBufferGroups }
    let rows ← (Grid.load host.files file).adapt .sheetFile
    let report ← orFail (.sheet file) (layout.validate lettering host.workers rows)
    return report.listing ignoreEmpty
  | .verify text target1 target2 kind buffer => do
    let lettering ← (settings.lettering host.files).adapt .lettering
    let cycle : Cycle := { kind, buffer := settings.buffer kind buffer, target1, target2 }
    let comm ← orFail .comm (Comm.parse text)
    let verdict ← orFail .lettering (cycle.check lettering comm.expand)
    return sequenceLine comm.expand ++ verdictLine verdict
  | .expand text => do
    let comm ← orFail .comm (Comm.parse text)
    return sequenceLine comm.expand
  | .state moves file => do
    return cubeText (Cube.solved.run (← givenMoves host moves file))
  | .scramble length allMoves seed => do
    let seed ← match seed with
      | some n => pure n
      | none => host.seed
    return sequenceLine (Sequence.random length (! allMoves) ⟨seed.toUInt64⟩).1

def runInvocation (host : Host m) (i : Invocation) : ExceptT RunError m String := do
  let settings ← match i.settings with
    | some path => (Settings.load host.files path).adapt .settings
    | none => pure .unset
  runCommand host settings i.command

def run (host : Host m) (words : List String) : m Outcome := do
  match Invocation.parse words with
  | .error .help => return .success usage
  | .error (.misuse e) => return .misuse e
  | .ok invocation =>
    match ← (runInvocation host invocation).run with
    | .ok output => return .success output
    | .error e => return .failure e.message

end Blindfold.Cli
