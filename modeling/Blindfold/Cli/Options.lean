/-!
# Scanning options

A command line is scanned word by word against a signature. Short options can be written together, and a
value may follow its option, be joined to it, or be joined by an equals sign. After `--` nothing is an
option. The scan ends at the first word that is in error or asks for help.
-/

namespace Blindfold.Cli

/-- What an option does. -/
inductive OptionRole where
  /-- Is there or not. -/
  | flag
  /-- May be there any number of times. -/
  | counter
  /-- Asks how the program is used. -/
  | help
  | valued (accepts : String → Bool)

/-- An option that may occur. -/
structure OptionSpec where
  name : String
  short : Option Char
  role : OptionRole

structure ArgumentSpec where
  name : String
  accepts : String → Bool

/-- What may occur on a command line, the arguments in order. -/
structure Signature where
  options : List OptionSpec
  arguments : List ArgumentSpec

/-- Why a command line cannot be understood. -/
inductive UsageError where
  | missingCommand
  | unknownCommand (word : String)
  | unknownOption (text : String)
  | missingValue (option : String)
  | unwantedValue (option : String)
  | repeated (option : String)
  | missingArgument (name : String)
  | extraArgument (text : String)
  | badValue (name text : String)
  | exclusive (first second : String)
deriving DecidableEq, Repr

def UsageError.message : UsageError → String
  | missingCommand => "a command is required"
  | unknownCommand word => s!"unknown command '{word}'"
  | unknownOption text => s!"unknown option '{text}'"
  | missingValue option => s!"option '{option}' needs a value"
  | unwantedValue option => s!"option '{option}' takes no value"
  | repeated option => s!"option '{option}' is given more than once"
  | missingArgument name => s!"argument '{name}' is required"
  | extraArgument text => s!"unexpected argument '{text}'"
  | badValue name text => s!"invalid value '{text}' for '{name}'"
  | exclusive first second => s!"'{first}' cannot be used with '{second}'"

/-- Why a command line gives no command. -/
inductive Stop where
  | help
  | misuse (e : UsageError)
deriving DecidableEq, Repr

/-- What a scan has found. -/
structure Scan where
  /-- Option names, with their values if they take one. -/
  options : List (String × Option String)
  /-- Argument names with what is given for them. -/
  arguments : List (String × String)
  /-- The option whose value comes next. -/
  awaiting : Option OptionSpec
  /-- Nothing more is an option. -/
  isPlain : Bool

/-- A word that starts with a dash and goes on is an option. -/
def looksLikeOption (word : String) : Bool :=
  match word.toList with
  | '-' :: _ :: _ => true
  | _ => false

namespace Scan

def empty : Scan := ⟨[], [], none, false⟩

def has (s : Scan) (name : String) : Bool := s.options.any (·.1 == name)

/-- Adds an option to which no value is joined. -/
def addOption (s : Scan) (spec : OptionSpec) : Except Stop Scan :=
  let added := { s with options := s.options ++ [(spec.name, none)] }
  match spec.role with
  | .help => throw .help
  | .counter => return added
  | .flag => if s.has spec.name then throw (.misuse (.repeated spec.name)) else return added
  | .valued _ => return { s with awaiting := some spec }

/-- Adds an option with its value. -/
def addValue (s : Scan) (spec : OptionSpec) (value : String) : Except Stop Scan := do
  match spec.role with
  | .valued accepts =>
    if s.has spec.name then throw (.misuse (.repeated spec.name))
    if ! accepts value then throw (.misuse (.badValue spec.name value))
    return { s with options := s.options ++ [(spec.name, some value)], awaiting := none }
  | _ => throw (.misuse (.unwantedValue spec.name))

/-- Adds the next argument. -/
def addArgument (s : Scan) (sig : Signature) (word : String) : Except Stop Scan := do
  match sig.arguments[s.arguments.length]? with
  | none => throw (.misuse (.extraArgument word))
  | some spec =>
    if ! spec.accepts word then throw (.misuse (.badValue spec.name word))
    return { s with arguments := s.arguments ++ [(spec.name, word)] }

/-- Adds a long option, here without its dashes. -/
def addLong (s : Scan) (sig : Signature) (text : List Char) : Except Stop Scan :=
  let (name, joined) := text.span (· != '=')
  match sig.options.find? (·.name == String.ofList name), joined with
  | none, _ => throw (.misuse (.unknownOption s!"--{String.ofList name}"))
  | some spec, _ :: value => s.addValue spec (String.ofList value)
  | some spec, [] => s.addOption spec

/-- Adds short options that are written together, here without their dash. -/
def addShort (sig : Signature) : Scan → List Char → Except Stop Scan
  | s, [] => return s
  | s, c :: joined =>
    match sig.options.find? (·.short == some c) with
    | none => throw (.misuse (.unknownOption s!"-{c}"))
    | some spec =>
      match spec.role, joined with
      | .valued _, '=' :: value => s.addValue spec (String.ofList value)
      | .valued _, _ :: _ => s.addValue spec (String.ofList joined)
      | _, _ => do addShort sig (← s.addOption spec) joined

def read (sig : Signature) (s : Scan) (word : String) : Except Stop Scan :=
  match s.awaiting, s.isPlain, word.toList with
  | some spec, _, _ =>
    if looksLikeOption word then throw (.misuse (.missingValue spec.name)) else s.addValue spec word
  | none, true, _ => s.addArgument sig word
  | none, false, ['-', '-'] => return { s with isPlain := true }
  | none, false, '-' :: '-' :: text => s.addLong sig text
  | none, false, '-' :: c :: text => addShort sig s (c :: text)
  | none, false, _ => s.addArgument sig word

/-- The next word is no option and no value of one. -/
def isAtWord (s : Scan) (word : String) : Bool :=
  ! s.isPlain && s.awaiting.isNone && ! looksLikeOption word

def finish (s : Scan) : Except Stop Scan :=
  match s.awaiting with
  | some spec => throw (.misuse (.missingValue spec.name))
  | none => return s

/-- Reads words up to the first that is no option, which is left over with those after it. -/
def readOptions (sig : Signature) : Scan → List String → Except Stop (Scan × List String)
  | s, [] => return (← s.finish, [])
  | s, word :: rest =>
    if s.isAtWord word then return (s, word :: rest)
    else do readOptions sig (← s.read sig word) rest

def ofWords (sig : Signature) (words : List String) : Except Stop Scan := do
  (← words.foldlM (read sig) empty).finish

/-! ## What was found -/

def value? (s : Scan) (name : String) : Option String :=
  (s.options.lookup name).join.or (s.arguments.lookup name)

/-- The value of an option or argument, read by `read?`. -/
def optional {α : Type} (s : Scan) (name : String) (read? : String → Option α) : Option α :=
  (s.value? name).bind read?

/-- The value of an option or argument that has to be given. -/
def required {α : Type} (s : Scan) (name : String) (read? : String → Option α) :
    Except UsageError α :=
  match s.optional name read? with
  | some a => .ok a
  | none => .error (.missingArgument name)

end Scan
end Blindfold.Cli
