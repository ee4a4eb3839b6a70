import Blindfold.Comm.Basic
import Blindfold.Proofs.Motion

/-!
# What a comm does

A comm read as a permutation of the stickers, with true inverses where the notation has them, is what its moves
do to any cube: `Comm.run_expand`. To invert the moves is to invert the comm as it is written: `Comm.expand_inverse`.
-/

namespace Blindfold
namespace Comm

mutual

/-- Sends every sticker to the one that its color comes from. Of a product the left factor is done first. -/
def perm : Comm → Equiv.Perm Sticker
  | moves s => Sequence.perm s
  | commutator first second => first.perm * second.perm * first.perm⁻¹ * second.perm⁻¹
  | conjugate setup nested => setup.perm * nested.perm * setup.perm⁻¹
  | double body => body.perm * body.perm
  | slash setup slice => setup.perm * slice.perm * setup.perm * setup.perm * slice.perm⁻¹ * setup.perm
  | sideBySide parts => permAll parts

def permAll : List Comm → Equiv.Perm Sticker
  | [] => 1
  | part :: parts => part.perm * permAll parts

end

theorem perm_expand (comm : Comm) : Sequence.perm comm.expand = comm.perm := by
  induction comm with
  | moves s => rfl
  | commutator a b iha ihb =>
      simp only [expand, perm, Sequence.perm_append, Sequence.perm_inverse, iha, ihb]
  | conjugate a b iha ihb =>
      simp only [expand, perm, Sequence.perm_append, Sequence.perm_inverse, iha, ihb]
  | double a ih => simp only [expand, perm, Sequence.perm_append, ih]
  | slash a b iha ihb =>
      simp only [expand, perm, Sequence.perm_append, Sequence.perm_inverse, iha, ihb]
  | sideBySide parts ih =>
      rw [expand, perm]
      induction parts with
      | nil => rfl
      | cons part parts ihs =>
          rw [List.forall_mem_cons] at ih
          rw [expandAll, permAll, Sequence.perm_append, ih.1, ihs ih.2]

/-- The moves of a comm do to every cube what the comm says as a permutation. -/
theorem run_expand (c : Cube) (comm : Comm) : c.run comm.expand = c.reindex comm.perm := by
  ext p
  rw [Cube.get_run, perm_expand, Cube.get_reindex]

/-! ## Inverses -/

mutual

/-- The comm that undoes this one, written with the same forms. -/
def inverse : Comm → Comm
  | moves s => moves s.inverse
  | commutator first second => commutator second first
  | conjugate setup nested => conjugate setup nested.inverse
  | double body => double body.inverse
  | slash setup slice => slash setup.inverse slice
  | sideBySide parts => sideBySide (inverseAll parts)

/-- The inverses of all parts, in reverse order. -/
def inverseAll : List Comm → List Comm
  | [] => []
  | part :: parts => inverseAll parts ++ [part.inverse]

end

theorem inverse_sideBySide (parts : List Comm) :
    inverse (sideBySide parts) = sideBySide (parts.map inverse).reverse := by
  rw [inverse]
  congr 1
  induction parts with
  | nil => rfl
  | cons part parts ih => rw [inverseAll, ih, List.map_cons, List.reverse_cons]

theorem expandAll_append (parts rest : List Comm) : expandAll (parts ++ rest) = expandAll parts ++ expandAll rest := by
  induction parts with
  | nil => rfl
  | cons part parts ih => rw [List.cons_append, expandAll, expandAll, ih, List.append_assoc]

/-- The inverse of a comm expands, move for move, to the inverse of its expansion. -/
theorem expand_inverse (comm : Comm) : comm.inverse.expand = comm.expand.inverse := by
  induction comm with
  | moves s => rfl
  | commutator a b _ _ =>
      simp only [inverse, expand, Sequence.inverse_append, Sequence.inverse_inverse, List.append_assoc]
  | conjugate a b _ ihb =>
      simp only [inverse, expand, Sequence.inverse_append, Sequence.inverse_inverse, ihb, List.append_assoc]
  | double a ih => simp only [inverse, expand, Sequence.inverse_append, ih]
  | slash a b iha _ =>
      simp only [inverse, expand, Sequence.inverse_append, Sequence.inverse_inverse, iha, List.append_assoc]
  | sideBySide parts ih =>
      rw [inverse_sideBySide, expand, expand]
      induction parts with
      | nil => rfl
      | cons part parts ihs =>
          rw [List.forall_mem_cons] at ih
          rw [List.map_cons, List.reverse_cons, expandAll_append, ihs ih.2, expandAll, expandAll, expandAll,
            List.append_nil, ih.1, Sequence.inverse_append]

end Comm
end Blindfold
