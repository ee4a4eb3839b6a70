/-!
# Values of a settings text

The settings hold text and tables. Numbers, booleans and dates may be written too; of these only the fact
that they are there is kept.
-/

namespace Blindfold.Toml

/-- How a table came about, which decides how it may be extended. -/
inductive TableKind where
  /-- Written between braces; closed. -/
  | inlined
  /-- Named by a header of its own. -/
  | headed
  /-- Implied by a header further down; a header may still name it. -/
  | implied
  /-- Implied by a dotted key; further dotted keys may extend it. -/
  | dotted
deriving DecidableEq, Repr

inductive Value where
  | text (s : String)
  /-- A number, a boolean, a date or a time. -/
  | scalar
  /-- A number that is too large or whose digits are none. -/
  | unreadable
  | array (elements : List Value)
  | table (kind : TableKind) (entries : List (String × Value))
  /-- Tables that were added one by one by headers. -/
  | tables (earlier : List (List (String × Value))) (last : List (String × Value))
deriving Repr

abbrev Entries := List (String × Value)

namespace Entries

/-- Gives a key a new value, in place if it has one. -/
def set (es : Entries) (key : String) (v : Value) : Entries :=
  if es.any (·.1 == key) then es.map fun e => if e.1 == key then (key, v) else e
  else es ++ [(key, v)]

/-- Changes the table at the end of a path, with what it is now known as. Missing tables on the way are
created as `create`; dotted keys may not pass a table that has a header. -/
def descend (create : TableKind) (change : TableKind → Entries → Option Entries) :
    List String → TableKind → Entries → Option Entries
  | [], kind, es => change kind es
  | key :: path, _, es =>
    match es.lookup key with
    | none => return es.set key (.table create (← descend create change path create []))
    | some (.table kind inner) =>
      if kind = .inlined ∨ (create = .dotted ∧ kind = .headed) then none
      else return es.set key (.table kind (← descend create change path kind inner))
    | some (.tables earlier last) =>
      return es.set key (.tables earlier (← descend create change path .headed last))
    | some _ => none

/-- Adds a key with its value. A key may be given once, and a dotted key may only extend a table that dotted
keys made. -/
def addPair (es : Entries) (path : List String) (key : String) (v : Value) : Option Entries :=
  descend .dotted (fun kind inner =>
    if decide (kind = .dotted) == path.isEmpty || (inner.lookup key).isSome then none
    else some (inner.set key v)) path .headed es

end Entries

/-- A dotted key, as its path and its last part, with its value. -/
structure Pair where
  path : List String
  key : String
  value : Value

namespace Entries

def addPairs (es : Entries) (pairs : List Pair) : Option Entries :=
  pairs.foldlM (fun es p => es.addPair p.path p.key p.value) es

end Entries

/-- A header with the pairs below it. -/
structure Section where
  /-- Written with double brackets, to add a table to a list of tables. -/
  isElement : Bool
  path : List String
  key : String
  pairs : List Pair

namespace Entries

/-- Adds a section. Its table must be new, implied only, or a further element. -/
def addSection (es : Entries) (s : Section) : Option Entries :=
  descend .implied (fun _ inner =>
    match s.isElement, inner.lookup s.key with
    | false, none => return inner.set s.key (.table .headed (← addPairs [] s.pairs))
    | false, some (.table .implied old) =>
      return inner.set s.key (.table .headed (← addPairs old s.pairs))
    | true, none => return inner.set s.key (.tables [] (← addPairs [] s.pairs))
    | true, some (.tables earlier last) =>
      return inner.set s.key (.tables (earlier ++ [last]) (← addPairs [] s.pairs))
    | _, _ => none) s.path .headed es

end Entries
end Blindfold.Toml
