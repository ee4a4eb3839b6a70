import Blindfold.Cli.Options
import Blindfold.Lettering.Letter
import Blindfold.Text.Numeral

/-!
# Commands

What a command line asks for.
-/

namespace Blindfold.Cli

/-- What a command line asks for. -/
inductive Command where
  /-- Validates every comm of a sheet. -/
  | check (file : String) (kind : PieceKind) (buffer : Option Letter)
      (headers emptyBufferGroups ignoreEmpty : Bool)
  /-- Checks one comm against a pair of targets. -/
  | verify (comm : String) (target1 target2 : Letter) (kind : PieceKind) (buffer : Option Letter)
  | expand (comm : String)
  /-- Prints the cube after moves, given directly or in a file. -/
  | state (moves file : Option String)
  | scramble (length : Nat) (allMoves : Bool) (seed : Option Nat)
deriving DecidableEq, Repr

/-- A command with the settings file to use. -/
structure Invocation where
  settings : Option String
  command : Command
deriving DecidableEq, Repr

namespace Command

/-! ## Forms of values -/

def text? (text : String) : Option String := some text

def path? (text : String) : Option String := if text.isEmpty then none else some text

def letter? (text : String) : Option Letter :=
  match text.toList with
  | [c] => Letter.ofChar? c
  | _ => none

def count? (text : String) : Option Nat := Text.count? text.toList

/-! ## Options and arguments -/

def flag (name : String) (short : Char) : OptionSpec := ⟨name, some short, .flag⟩

/-- An option whose value `read?` can read. -/
def valued {α : Type} (name : String) (short : Option Char) (read? : String → Option α) : OptionSpec :=
  ⟨name, short, .valued fun text => (read? text).isSome⟩

def argument {α : Type} (name : String) (read? : String → Option α) : ArgumentSpec :=
  ⟨name, fun text => (read? text).isSome⟩

def common : List OptionSpec := [⟨"verbose", some 'v', .counter⟩, ⟨"help", some 'h', .help⟩]

def pieceType : OptionSpec := valued "piece-type" (some 't') PieceKind.ofString?

def bufferOption : OptionSpec := valued "buffer" (some 'b') letter?

/-! ## The commands -/

def readCheck (s : Scan) : Except UsageError Command := do
  return .check (← s.required "file" path?) (← s.required "piece-type" PieceKind.ofString?)
    (s.optional "buffer" letter?) (s.has "headers") (s.has "empty-buffer-groups")
    (s.has "ignore-empty")

def readVerify (s : Scan) : Except UsageError Command := do
  return .verify (← s.required "comm" text?) (← s.required "target1" letter?)
    (← s.required "target2" letter?) (← s.required "piece-type" PieceKind.ofString?)
    (s.optional "buffer" letter?)

def readExpand (s : Scan) : Except UsageError Command := do
  return .expand (← s.required "comm" text?)

def readState (s : Scan) : Except UsageError Command :=
  match s.value? "sequence", s.value? "file" with
  | some moves, some _ => throw (.exclusive moves "file")
  | moves, file => return .state moves file

def readScramble (s : Scan) : Except UsageError Command :=
  return .scramble ((s.optional "length" count?).getD 25) (s.has "all-moves")
    (s.optional "seed" count?)

end Command

/-- What may follow the name of a command, and the command that it then is. -/
structure CommandSpec where
  name : String
  signature : Signature
  read : Scan → Except UsageError Command

namespace CommandSpec

open Command

def all : List CommandSpec := [
  { name := "check"
    signature := {
      options := [pieceType, bufferOption, flag "headers" 'r', flag "empty-buffer-groups" 'e',
        flag "ignore-empty" 'i'] ++ common
      arguments := [argument "file" path?] }
    read := readCheck },
  { name := "verify"
    signature := {
      options := [pieceType, bufferOption] ++ common
      arguments := [argument "comm" text?, argument "target1" letter?, argument "target2" letter?] }
    read := readVerify },
  { name := "expand"
    signature := { options := common, arguments := [argument "comm" text?] }
    read := readExpand },
  { name := "state"
    signature := {
      options := [valued "file" (some 'f') path?] ++ common
      arguments := [argument "sequence" text?] }
    read := readState },
  { name := "scramble"
    signature := {
      options := [valued "length" (some 'l') count?, flag "all-moves" 'a',
        valued "seed" (some 's') count?] ++ common
      arguments := [] }
    read := readScramble }]

def find? (name : String) : Option CommandSpec := all.find? (·.name == name)

end CommandSpec

namespace Invocation

/-- What may stand before the name of a command. -/
def signature : Signature where
  options := [Command.valued "config" none Command.path?, ⟨"version", some 'V', .help⟩] ++
    Command.common
  arguments := []

/-- Help can be asked for in general or about one command. -/
def readHelp : List String → Stop
  | [] => .help
  | [topic] =>
    if topic = "help" ∨ (CommandSpec.find? topic).isSome then .help
    else .misuse (.unknownCommand topic)
  | _ :: extra :: _ => .misuse (.extraArgument extra)

def readCommand : List String → Except Stop Command
  | [] => throw (.misuse .missingCommand)
  | "help" :: words => throw (readHelp words)
  | name :: words =>
    match CommandSpec.find? name with
    | some spec => do (spec.read (← Scan.ofWords spec.signature words)).mapError .misuse
    | none => throw (.misuse (.unknownCommand name))

def parse (words : List String) : Except Stop Invocation := do
  let (found, rest) ← Scan.readOptions signature .empty words
  return { settings := found.value? "config", command := ← readCommand rest }

end Invocation
end Blindfold.Cli
