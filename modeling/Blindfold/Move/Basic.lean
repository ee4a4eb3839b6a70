import Blindfold.Move.Layer

/-!
# Moves

A move turns a layer by a quarter or a half. There are 54 of them.
-/

namespace Blindfold

/-- How far a layer is turned, seen from the face it turns with. -/
inductive Turn where
  | clockwise
  | counterclockwise
  | half
deriving DecidableEq, Repr

structure Move where
  layer : Layer
  turn : Turn
deriving DecidableEq, Repr

namespace Turn

def all : List Turn := [clockwise, counterclockwise, half]

def inverse : Turn → Turn
  | clockwise => counterclockwise
  | counterclockwise => clockwise
  | half => half

/-- What is written after the layer. -/
def suffix : Turn → List Char
  | clockwise => []
  | counterclockwise => ['\'']
  | half => ['2']

end Turn

namespace Move

/-- The 54 moves, layer by layer. -/
def all : List Move := Layer.all.flatMap fun layer => Turn.all.map (Move.mk layer)

/-- How many moves at the start of `all` turn a single face. -/
def faceTurnCount : Nat := 18

/-- The place in `all`. -/
def index (m : Move) : Nat := all.idxOf m

def precedes (a b : Move) : Bool := a.index ≤ b.index

def inverse (m : Move) : Move := { m with turn := m.turn.inverse }

/-- The canonical spelling. -/
def text (m : Move) : List Char := m.layer.symbol ++ m.turn.suffix

/-- A token as layer spelling and turn. A prime after a half turn has no effect. -/
def splitTurn (token : List Char) : List Char × Turn :=
  match token.reverse with
  | '\'' :: '2' :: rest => (rest.reverse, .half)
  | '2' :: rest => (rest.reverse, .half)
  | '\'' :: rest => (rest.reverse, .counterclockwise)
  | _ => (token, .clockwise)

/-- The move that a token names. -/
def read? (token : List Char) : Option Move :=
  let (layer, turn) := splitTurn token
  (Layer.read? layer).map (Move.mk · turn)

end Move
end Blindfold
