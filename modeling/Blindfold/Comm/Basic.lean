import Blindfold.Move.Sequence

/-!
# Comms

A comm is a tree of commutators, conjugates and similar forms over plain sequences. It stands for the
moves that it expands to.
-/

namespace Blindfold

/-- A comm as it is written. -/
inductive Comm where
  | moves (s : Sequence)
  /-- `[A, B]`, that is `A B A' B'`. -/
  | commutator (first second : Comm)
  /-- `[A: B]`, that is `A B A'`. -/
  | conjugate (setup nested : Comm)
  /-- `(A)2`, that is `A A`. -/
  | double (body : Comm)
  /-- `A / B`, that is `A B A A B' A`. -/
  | slash (setup slice : Comm)
  /-- Comms side by side, done in order. -/
  | sideBySide (parts : List Comm)
deriving Repr

namespace Comm

mutual

def expand : Comm → Sequence
  | moves s => s
  | commutator first second =>
    let a := first.expand
    let b := second.expand
    a ++ b ++ a.inverse ++ b.inverse
  | conjugate setup nested =>
    let a := setup.expand
    a ++ nested.expand ++ a.inverse
  | double body =>
    let a := body.expand
    a ++ a
  | slash setup slice =>
    let a := setup.expand
    let b := slice.expand
    a ++ b ++ a ++ a ++ b.inverse ++ a
  | sideBySide parts => expandAll parts

def expandAll : List Comm → Sequence
  | [] => []
  | part :: parts => part.expand ++ expandAll parts

end

/-- What holds of plain moves, and of a form when it holds of all its parts, holds of every comm. -/
@[elab_as_elim, induction_eliminator]
theorem induct {P : Comm → Prop} (moves : ∀ s, P (moves s))
    (commutator : ∀ first second, P first → P second → P (commutator first second))
    (conjugate : ∀ setup nested, P setup → P nested → P (conjugate setup nested))
    (double : ∀ body, P body → P (double body))
    (slash : ∀ setup slice, P setup → P slice → P (slash setup slice))
    (sideBySide : ∀ parts, (∀ part ∈ parts, P part) → P (sideBySide parts)) (c : Comm) : P c :=
  @Comm.rec P (fun parts => ∀ part ∈ parts, P part) moves commutator conjugate double slash sideBySide
    (fun _ h => nomatch h) (fun _ _ hp hps => List.forall_mem_cons.mpr ⟨hp, hps⟩) c

end Comm
end Blindfold
