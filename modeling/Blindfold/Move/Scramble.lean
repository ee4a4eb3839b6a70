import Blindfold.Move.Sequence

/-!
# Scrambles

Random sequences are drawn from a generator with a 64-bit state, so a seed fixes the scramble.
-/

namespace Blindfold

structure Generator where
  state : UInt64
deriving DecidableEq, Repr

namespace Generator

/-- The state advances by an odd constant and therefore takes every value. -/
def increment : UInt64 := 0x2d358dccaa6c78a5

/-- What the state is mixed with before it is multiplied by itself. -/
def mixer : UInt64 := 0x8bb84b93962eacc9

def wordCount : Nat := Nat.pow 2 64

/-- The two halves of the 128-bit product of the state and the mixed state, combined by exclusive or. -/
def next (g : Generator) : UInt64 × Generator :=
  let state := g.state + increment
  let product := state.toNat * (state ^^^ mixer).toNat
  (product.toUInt64 ^^^ (product / wordCount).toUInt64, ⟨state⟩)

/-- Scales words to numbers below `n` until one of at most `fuel` is not refused. -/
def drawBelow (n : Nat) : (fuel : Nat) → Generator → Nat × Generator
  | 0, g => (0, g)
  | fuel + 1, g =>
    let (word, g) := g.next
    let scaled := word.toNat * n
    if scaled % wordCount < (wordCount - n) % n then drawBelow n fuel g
    else (scaled / wordCount, g)

/-- A number below `n`. The words that would favour some numbers are refused; as the state takes every
value, `wordCount` draws always find one. -/
def below (n : Nat) (g : Generator) : Nat × Generator := drawBelow n wordCount g

end Generator

/-- A random move, on request a turn of a single face. -/
def Move.random (faceTurnsOnly : Bool) : StateM Generator Move := fun g =>
  let (i, g) := g.below (if faceTurnsOnly then Move.faceTurnCount else Move.all.length)
  (Move.all.getD i ⟨.face .U, .clockwise⟩, g)

def Sequence.random (length : Nat) (faceTurnsOnly : Bool) : StateM Generator Sequence :=
  (List.replicate length ()).mapM fun _ => Move.random faceTurnsOnly

end Blindfold
