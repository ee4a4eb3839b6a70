import Blindfold.Proofs.Forms

/-!
# The bracketed notation

Every comm has a text in which each operand stands in brackets of its own. Reading this text gives the comm
back: `Comm.parse_toString`.
-/

namespace Blindfold
namespace Comm

mutual

/-- The text in which every operand and every part stands in brackets. -/
def text : Comm → List Char
  | moves s => s.text
  | commutator first second => Bracket.group first.text ++ ',' :: Bracket.group second.text
  | conjugate setup nested => Bracket.group setup.text ++ ':' :: Bracket.group nested.text
  | double body => '(' :: (body.text ++ [')', '2'])
  | slash setup slice => Bracket.group setup.text ++ '/' :: Bracket.group slice.text
  | sideBySide parts => textAll parts

def textAll : List Comm → List Char
  | [] => []
  | part :: parts => Bracket.group part.text ++ textAll parts

end

def toString (c : Comm) : String := String.ofList c.text

/-- Comms of which no form side by side has fewer than two parts. -/
inductive Proper : Comm → Prop
  | moves (s : Sequence) : Proper (moves s)
  | join (op : Operator) {a b : Comm} : Proper a → Proper b → Proper (op.join a b)
  | double {body : Comm} : Proper body → Proper (double body)
  | sideBySide {parts : List Comm} : 2 ≤ parts.length → (∀ part ∈ parts, Proper part) → Proper (sideBySide parts)

theorem text_join (op : Operator) (a b : Comm) :
    (op.join a b).text = Bracket.group a.text ++ op.mark :: Bracket.group b.text := by
  cases op <;> rw [Operator.join, text] <;> rfl

theorem text_sideBySide (parts : List Comm) :
    (sideBySide parts).text = ((parts.map text).map Bracket.group).flatten := by
  rw [text]
  induction parts with
  | nil => rfl
  | cons part parts ih => rw [textAll, ih]; rfl

theorem read_text {c : Comm} (h : c.Proper) : read c.text = .ok c := by
  induction h with
  | moves s =>
      rw [text, read_of_isPlain s.isPlain_text, readMoves, s.read_text]
  | join op _ _ iha ihb =>
      rw [text_join]
      exact read_join_groups op iha ihb
  | double _ ih =>
      rw [text, read_double (closes_of_read ih), ih]
      rfl
  | sideBySide h2 _ ih =>
      rw [text_sideBySide, read_groups (by rwa [List.length_map])]
      rw [List.forall₂_map_left_iff, List.forall₂_same]
      exact ih

theorem proper_of_read {cs : List Char} {c : Comm} (h : read cs = .ok c) : c.Proper := by
  refine read_induct (P := fun _ c => c.Proper) ?outer ?plain ?double ?join ?sideBySide h
  case outer => exact fun _ _ _ ih => ih
  case plain => exact fun _ s _ _ => .moves s
  case double => exact fun _ _ ih => .double ih
  case join => exact fun op _ _ _ _ iha ihb => .join op iha ihb
  case sideBySide =>
      intro cs parts h2 _ ih
      exact .sideBySide (ih.length_eq ▸ h2) fun _ => Outcome.forall_of_forall₂ ih.flip

/-- Reading undoes writing with brackets, for the comms that reading can give. -/
theorem parse_toString_iff {c : Comm} : parse c.toString = .ok c ↔ c.Proper := by
  rw [parse, toString, String.toList_ofList]
  exact ⟨proper_of_read, read_text⟩

example : toString (double (conjugate (moves [⟨.wide .R, .half⟩]) (sideBySide [moves [], double (moves [])]))) =
    "([r2]:[[][()2]])2" := by decide

end Comm
end Blindfold
