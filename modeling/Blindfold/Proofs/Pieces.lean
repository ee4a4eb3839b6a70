import Mathlib.Data.List.Rotate
import Mathlib.GroupTheory.Subgroup.Centralizer
import Blindfold.Proofs.Motion
import Blindfold.Lettering.Letter

/-!
# Pieces hold together

The stickers of an edge or corner stay together in every move, and a corner's stickers keep their order.
Both are said by one permutation, `Sticker.next`: every sequence commutes with it (`Sequence.perm_rigid`).
-/

namespace Blindfold

/-- The stickers of every edge and of every corner. A corner is read clockwise as seen from outside. -/
def PieceKind.pieces : PieceKind → List (List Sticker)
  | edge => [
      [⟨.U, 0, 1⟩, ⟨.B, 0, 1⟩], [⟨.U, 1, 2⟩, ⟨.R, 0, 1⟩], [⟨.U, 2, 1⟩, ⟨.F, 0, 1⟩], [⟨.U, 1, 0⟩, ⟨.L, 0, 1⟩],
      [⟨.L, 1, 2⟩, ⟨.F, 1, 0⟩], [⟨.L, 1, 0⟩, ⟨.B, 1, 2⟩], [⟨.R, 1, 0⟩, ⟨.F, 1, 2⟩], [⟨.R, 1, 2⟩, ⟨.B, 1, 0⟩],
      [⟨.D, 0, 1⟩, ⟨.F, 2, 1⟩], [⟨.D, 1, 2⟩, ⟨.R, 2, 1⟩], [⟨.D, 2, 1⟩, ⟨.B, 2, 1⟩], [⟨.D, 1, 0⟩, ⟨.L, 2, 1⟩]]
  | corner => [
      [⟨.U, 0, 0⟩, ⟨.L, 0, 0⟩, ⟨.B, 0, 2⟩], [⟨.U, 0, 2⟩, ⟨.B, 0, 0⟩, ⟨.R, 0, 2⟩],
      [⟨.U, 2, 2⟩, ⟨.R, 0, 0⟩, ⟨.F, 0, 2⟩], [⟨.U, 2, 0⟩, ⟨.F, 0, 0⟩, ⟨.L, 0, 2⟩],
      [⟨.D, 0, 0⟩, ⟨.L, 2, 2⟩, ⟨.F, 2, 0⟩], [⟨.D, 0, 2⟩, ⟨.F, 2, 2⟩, ⟨.R, 2, 0⟩],
      [⟨.D, 2, 2⟩, ⟨.R, 2, 2⟩, ⟨.B, 2, 0⟩], [⟨.D, 2, 0⟩, ⟨.B, 2, 2⟩, ⟨.L, 2, 0⟩]]

theorem Face.solvedColor_injective : Function.Injective solvedColor := by
  intro f g
  revert f g
  decide

namespace Sticker

/-- The next sticker of the same piece, clockwise around a corner; a center is its own. -/
def next : Equiv.Perm Sticker where
  toFun := Wires.source <| (PieceKind.edge.pieces ++ PieceKind.corner.pieces).flatMap Wires.ofCycle
  invFun := Wires.source <|
    (PieceKind.edge.pieces ++ PieceKind.corner.pieces).flatMap fun piece => Wires.ofCycle piece.reverse
  left_inv := by unfold Function.LeftInverse; decide +kernel
  right_inv := by unfold Function.RightInverse Function.LeftInverse; decide +kernel

/-- The kind of the piece that a sticker is on; none for a center. -/
def kind? (p : Sticker) : Option PieceKind :=
  if next p = p then none else if next (next p) = p then some .edge else some .corner

def SamePiece (p q : Sticker) : Prop := q = p ∨ q = next p ∨ q = next (next p)

instance (p q : Sticker) : Decidable (SamePiece p q) := inferInstanceAs (Decidable (_ ∨ _ ∨ _))

/-- A piece has three stickers in turn, or at most two. -/
theorem next_next_next (p : Sticker) : p.next.next.next = p ∨ p.next.next = p := by
  revert p
  decide +kernel

theorem SamePiece.symm {p q : Sticker} (h : p.SamePiece q) : q.SamePiece p := by
  rcases h with rfl | rfl | rfl
  · exact .inl rfl
  · rcases p.next_next_next with h3 | h2
    · exact .inr (.inr h3.symm)
    · exact .inr (.inl h2.symm)
  · rcases p.next_next_next with h3 | h2
    · exact .inr (.inl h3.symm)
    · exact .inl h2.symm

theorem SamePiece.next {p q : Sticker} (h : p.SamePiece q) : p.SamePiece q.next := by
  rcases h with rfl | rfl | rfl
  · exact .inr (.inl rfl)
  · exact .inr (.inr rfl)
  · rcases p.next_next_next with h3 | h2
    · exact .inl h3
    · exact .inr (.inl (congrArg _ h2))

theorem SamePiece.trans {p q r : Sticker} (hpq : p.SamePiece q) (hqr : q.SamePiece r) : p.SamePiece r := by
  rcases hqr with rfl | rfl | rfl
  · exact hpq
  · exact hpq.next
  · exact hpq.next.next

theorem center_injective : Function.Injective center := fun _ _ h => congrArg face h

theorem kind?_eq_none_iff (p : Sticker) : p.kind? = none ↔ p = .center p.face := by
  revert p
  decide +kernel

theorem kind?_eq_some_iff (k : PieceKind) (p : Sticker) : p.kind? = some k ↔ p ∈ k.pieces.flatten := by
  revert p
  cases k <;> decide +kernel

end Sticker

/-- The stickers of a piece of a given kind, read from `p` on. -/
def Sticker.around (p : Sticker) : PieceKind → List Sticker
  | .edge => [p, p.next]
  | .corner => [p, p.next, p.next.next]

theorem Sticker.mem_around {k : PieceKind} {p : Sticker} (h : p.kind? = some k) (q : Sticker) :
    q ∈ p.around k ↔ p.SamePiece q := by
  cases k with
  | corner => simp only [around, SamePiece, List.mem_cons, List.not_mem_nil, or_false]
  | edge =>
      have h2 : p.next.next = p := by
        unfold kind? at h
        split at h
        · cases h
        · split at h
          · assumption
          · cases h
      simp only [around, SamePiece, h2, List.mem_cons, List.not_mem_nil, or_false]
      tauto

theorem PieceKind.exists_eq_around {k : PieceKind} {piece : List Sticker} (h : piece ∈ k.pieces) :
    ∃ p : Sticker, p.kind? = some k ∧ piece = p.around k := by
  revert piece
  cases k <;> decide +kernel

theorem Sticker.exists_isRotated {k : PieceKind} {p : Sticker} (h : p.kind? = some k) :
    ∃ piece ∈ k.pieces, p.around k ~r piece := by
  revert p
  cases k <;> decide +kernel

theorem PieceKind.mem_piece_iff {k : PieceKind} {piece : List Sticker} (h : piece ∈ k.pieces) {p : Sticker}
    (hp : p ∈ piece) (q : Sticker) : q ∈ piece ↔ p.SamePiece q := by
  obtain ⟨first, hk, rfl⟩ := exists_eq_around h
  rw [Sticker.mem_around hk] at hp ⊢
  exact ⟨hp.symm.trans, hp.trans⟩

/-! ## Rigid permutations -/

/-- The permutations of stickers that keep pieces together and corners in order. -/
def Rigid : Subgroup (Equiv.Perm Sticker) := Subgroup.centralizer {Sticker.next}

theorem mem_rigid_iff {f : Equiv.Perm Sticker} : f ∈ Rigid ↔ ∀ p, f p.next = (f p).next := by
  rw [Rigid, Subgroup.mem_centralizer_singleton_iff, Equiv.ext_iff]
  exact ⟨fun h p => h p, fun h p => h p⟩

theorem Rigid.next_mem : Sticker.next ∈ Rigid := mem_rigid_iff.mpr fun _ => rfl

/-- A quarter turn as a rigid permutation. -/
def Quarter.rigid (q : Quarter) : Rigid := ⟨q.perm, by
  induction q using of_clockwise with
  | face f => simp only [mem_rigid_iff]; revert f; decide +kernel
  | slice s => simp only [mem_rigid_iff]; revert s; decide +kernel
  | rotation a => simp only [mem_rigid_iff]; revert a; decide +kernel
  | reverse q ih => exact q.perm_reverse ▸ Rigid.inv_mem ih⟩

theorem Quarter.rigid_reverse (q : Quarter) : q.reverse.rigid = q.rigid⁻¹ := Subtype.ext q.perm_reverse

theorem Sequence.perm_rigid (s : Sequence) : perm s ∈ Rigid :=
  perm_mem (fun q => q.rigid.prop) s

variable {f : Equiv.Perm Sticker}

theorem Rigid.kind? (hf : f ∈ Rigid) (p : Sticker) : (f p).kind? = p.kind? := by
  rw [mem_rigid_iff] at hf
  simp only [Sticker.kind?, ← hf, f.injective.eq_iff]

theorem Rigid.apply_center (hf : f ∈ Rigid) (g : Face) : f (.center g) = .center (f (.center g)).face := by
  rw [← Sticker.kind?_eq_none_iff, kind? hf, Sticker.kind?_eq_none_iff]
  rfl

theorem Rigid.samePiece (hf : f ∈ Rigid) {p q : Sticker} (h : p.SamePiece q) : (f p).SamePiece (f q) := by
  rw [mem_rigid_iff] at hf
  rcases h with rfl | rfl | rfl
  · exact .inl rfl
  · exact .inr (.inl (hf p))
  · exact .inr (.inr (by rw [hf, hf]))

theorem Rigid.samePiece_iff (hf : f ∈ Rigid) {p q : Sticker} : (f p).SamePiece (f q) ↔ p.SamePiece q :=
  ⟨fun h => by simpa using samePiece (Rigid.inv_mem hf) h, samePiece hf⟩

theorem Rigid.map_around (hf : f ∈ Rigid) (p : Sticker) (k : PieceKind) :
    (p.around k).map f = (f p).around k := by
  rw [mem_rigid_iff] at hf
  cases k <;> simp only [Sticker.around, List.map_cons, List.map_nil, hf]

/-- A piece comes from one piece, and in the same order up to where it is begun. -/
theorem Rigid.exists_isRotated {k : PieceKind} {piece : List Sticker} (hf : f ∈ Rigid) (h : piece ∈ k.pieces) :
    ∃ source ∈ k.pieces, piece.map f ~r source := by
  obtain ⟨p, hp, rfl⟩ := PieceKind.exists_eq_around h
  rw [map_around hf]
  exact Sticker.exists_isRotated ((kind? hf p).trans hp)

/-- Where one sticker of a piece goes, the others follow. -/
theorem Rigid.eq_of_samePiece {g : Equiv.Perm Sticker} (hf : f ∈ Rigid) (hg : g ∈ Rigid) {p q : Sticker}
    (h : p.SamePiece q) (he : f p = g p) : f q = g q := by
  rw [mem_rigid_iff] at hf hg
  rcases h with rfl | rfl | rfl
  · exact he
  · rw [hf, hg, he]
  · rw [hf, hf, hg, hg, he]

end Blindfold
