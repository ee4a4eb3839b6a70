import Mathlib.Algebra.Ring.Parity
import Mathlib.Data.ZMod.IntUnitsPower
import Mathlib.GroupTheory.Perm.List
import Mathlib.GroupTheory.Perm.Sign
import Blindfold.Proofs.Pieces

/-!
# Centers and parity

A sequence moves the centers as some rotations of the whole cube do (`Sequence.perm_carried`), and permutes
the edges and corners evenly or oddly as these are in number (`Sequence.parity_rigid`). Centers that move
while the other pieces are permuted evenly are therefore moved by evenly many quarter rotations.
-/

namespace Blindfold

namespace Sticker

/-- The sticker stands for its piece: it is on `U` or `D`, or else on `F` or `B`. -/
def isHead (p : Sticker) : Bool :=
  match p.face with
  | .U | .D => p ≠ .center p.face
  | .F | .B => p.row = 1 && p.col ≠ 1
  | .L | .R => false

/-- The sticker that stands for the piece. -/
def head (p : Sticker) : Sticker := if p.isHead then p else if p.next.isHead then p.next else p.next.next

theorem kind?_ne_none_of_isHead {p : Sticker} (h : p.isHead) : p.kind? ≠ none := by
  revert p
  decide +kernel

theorem isHead_head {p : Sticker} (h : p.kind? ≠ none) : p.head.isHead := by
  revert p
  decide +kernel

theorem kind?_head (p : Sticker) : p.head.kind? = p.kind? := by
  revert p
  decide +kernel

theorem head_next (p : Sticker) : p.next.head = p.head := by
  revert p
  decide +kernel

example : head ⟨.F, 0, 1⟩ = ⟨.U, 2, 1⟩ := by decide +kernel

theorem head_of_isHead {p : Sticker} (h : p.isHead) : p.head = p := if_pos h

theorem samePiece_head (p : Sticker) : p.SamePiece p.head := by
  unfold head
  split
  · exact .inl rfl
  · split
    · exact .inr (.inl rfl)
    · exact .inr (.inr rfl)

theorem samePiece_of_head_eq {p q : Sticker} (h : p.head = q.head) : p.SamePiece q :=
  p.samePiece_head.trans (h ▸ q.samePiece_head.symm)

theorem SamePiece.head_eq {p q : Sticker} (h : p.SamePiece q) : q.head = p.head := by
  rcases h with rfl | rfl | rfl
  · rfl
  · rw [head_next]
  · rw [head_next, head_next]

end Sticker

/-! ## The parity of a rigid permutation -/

namespace Rigid

/-- The permutation of the edges and corners, each by the sticker that stands for it. -/
def heads : Rigid →* Equiv.Perm Sticker := MonoidHom.toHomPerm {
  toFun f p := if p.isHead then (f.val p).head else p
  map_one' := by
    funext p
    by_cases h : p.isHead
    · exact (if_pos h).trans (Sticker.head_of_isHead h)
    · exact if_neg h
  map_mul' f g := by
    funext p
    change _ = ite _ _ _
    by_cases h : p.isHead
    · have hk : (g.val p).kind? ≠ none := by
        rw [Rigid.kind? g.prop]
        exact Sticker.kind?_ne_none_of_isHead h
      have hs := Rigid.samePiece f.prop (g.val p).samePiece_head
      simp only [h, ↓reduceIte, Sticker.isHead_head hk, hs.head_eq]
      rfl
    · simp only [h, Bool.false_eq_true, ↓reduceIte] }

theorem heads_apply (f : Rigid) (p : Sticker) : heads f p = if p.isHead then (f.val p).head else p := rfl

/-- Whether the edges and corners, taken together, are permuted evenly. -/
def parity : Rigid →* ℤˣ := Equiv.Perm.sign.comp heads

theorem parity_eq_one {f : Rigid} (h : ∀ p, p.kind? ≠ none → f.val p = p) : parity f = 1 := by
  have : heads f = 1 := by
    refine Equiv.ext fun p => ?_
    rw [heads_apply]
    by_cases hp : p.isHead
    · rw [if_pos hp, h p (Sticker.kind?_ne_none_of_isHead hp), Sticker.head_of_isHead hp]
      rfl
    · exact if_neg hp
  rw [parity, MonoidHom.comp_apply, this, map_one]

end Rigid

theorem sign_formPerm {l : List Sticker} (h : l.Nodup) :
    Equiv.Perm.sign l.formPerm = (-1) ^ (l.length - 1) := by
  induction l with
  | nil => simp
  | cons p l ih =>
      cases l with
      | nil => simp
      | cons q l =>
          have hpq : p ≠ q := fun he => (List.nodup_cons.mp h).1 (he ▸ List.mem_cons_self)
          rw [List.formPerm_cons_cons, Equiv.Perm.sign_mul, Equiv.Perm.sign_swap hpq, ih h.of_cons]
          simp [pow_succ']

/-! ## The parity of a quarter turn -/

theorem Quarter.parity_reverse (q : Quarter) : Rigid.parity q.reverse.rigid = Rigid.parity q.rigid := by
  rw [q.rigid_reverse, map_inv, Int.units_inv_eq_self]

theorem Quarter.parity_slab (s : Slab) (d : Direction) :
    Rigid.parity (slab s d).rigid = Rigid.parity (slab s .clockwise).rigid := by
  cases d with
  | clockwise => rfl
  | counterclockwise => exact parity_reverse (slab s .clockwise)

theorem Slab.length_ring (s : Slab) (i : Fin 3) : (s.ring i).length = 4 := by
  rcases s with f | s
  · cases f <;> rfl
  · cases s <;> rfl

theorem Slab.sign_ring {s : Slab} {i : Fin 3} (h : ((s.ring i).map Sticker.head).Nodup) :
    Equiv.Perm.sign ((s.ring i).map Sticker.head).formPerm = -1 := by
  rw [sign_formPerm h, List.length_map, length_ring]
  rfl

theorem Face.heads_rigid (f : Face) : Rigid.heads (Quarter.slab (.face f) .clockwise).rigid =
    (((Slab.face f).ring 0).map Sticker.head).formPerm *
      (((Slab.face f).ring 1).map Sticker.head).formPerm := by
  simp only [Equiv.ext_iff, Rigid.heads_apply]
  revert f
  decide +kernel

theorem Face.parity_rigid (f : Face) (d : Direction) : Rigid.parity (Quarter.slab (.face f) d).rigid = 1 := by
  -- One ring of stickers goes around the four corners, another around the four edges.
  have hcorners : (((Slab.face f).ring 0).map Sticker.head).Nodup := by revert f; decide +kernel
  have hedges : (((Slab.face f).ring 1).map Sticker.head).Nodup := by revert f; decide +kernel
  rw [Quarter.parity_slab, Rigid.parity, MonoidHom.comp_apply, heads_rigid, Equiv.Perm.sign_mul,
    Slab.sign_ring hcorners, Slab.sign_ring hedges]
  rfl

theorem Slice.heads_rigid (s : Slice) : Rigid.heads (Quarter.slab (.slice s) .clockwise).rigid =
    (((Slab.slice s).ring 0).map Sticker.head).formPerm := by
  simp only [Equiv.ext_iff, Rigid.heads_apply]
  revert s
  decide +kernel

theorem Slice.parity_rigid (s : Slice) (d : Direction) :
    Rigid.parity (Quarter.slab (.slice s) d).rigid = -1 := by
  have hedges : (((Slab.slice s).ring 0).map Sticker.head).Nodup := by revert s; decide +kernel
  rw [Quarter.parity_slab, Rigid.parity, MonoidHom.comp_apply, heads_rigid, Slab.sign_ring hedges]

namespace Axis

/-- The face with which a rotation turns. -/
def front : Axis → Face
  | x => .R
  | y => .U
  | z => .F

def back : Axis → Face
  | x => .L
  | y => .D
  | z => .B

/-- A rotation turns the three layers of its axis together. -/
theorem perm_rotation (a : Axis) : (Quarter.rotation a .clockwise).perm =
    (Quarter.slab (.face a.front) .clockwise).perm *
      (Quarter.slab (.slice a.front.sliceBehind.1) (a.front.sliceSense .clockwise)).perm *
      (Quarter.slab (.face a.back) .counterclockwise).perm := by
  simp only [Equiv.ext_iff]
  revert a
  decide +kernel

example : (Quarter.rotation .x .clockwise).perm ⟨.U, 0, 0⟩ = ⟨.F, 0, 0⟩ := by decide +kernel

theorem rigid_rotation (a : Axis) : (Quarter.rotation a .clockwise).rigid =
    (Quarter.slab (.face a.front) .clockwise).rigid *
      (Quarter.slab (.slice a.front.sliceBehind.1) (a.front.sliceSense .clockwise)).rigid *
      (Quarter.slab (.face a.back) .counterclockwise).rigid := Subtype.ext a.perm_rotation

theorem parity_rigid (a : Axis) : Rigid.parity (Quarter.rotation a .clockwise).rigid = -1 := by
  rw [rigid_rotation, map_mul, map_mul, Face.parity_rigid, Face.parity_rigid, Slice.parity_rigid, one_mul, mul_one]

end Axis

/-! ## Centers -/

/-- The faces from which the centers come. -/
def Rigid.centers : Rigid →* Equiv.Perm Face := MonoidHom.toHomPerm {
  toFun f g := (f.val (.center g)).face
  map_one' := rfl
  map_mul' f g := by
    funext h
    exact congrArg (fun p => (f.val p).face) (apply_center g.prop h) }

theorem Rigid.apply_centers (f : Rigid) (g : Face) : f.val (.center g) = .center (centers f g) :=
  apply_center f.prop g

def Direction.turn : Direction → Turn
  | clockwise => .clockwise
  | counterclockwise => .counterclockwise

def Axis.quarter (a : Axis) (d : Direction) : Move := ⟨.rotation a, d.turn⟩

/-- The axis about which a slice turns. -/
def Slice.axis : Slice → Axis
  | M => .x
  | S => .z
  | E => .y

/-- The rotations that move the centers as a quarter turn does. -/
def Quarter.carried : Quarter → Sequence
  | slab (.face _) _ => []
  | slab (.slice s) d => [s.axis.quarter (s.axis.front.sliceSense d)]
  | rotation a d => [a.quarter d]

theorem Quarter.length_carried_reverse (q : Quarter) : q.reverse.carried.length = q.carried.length := by
  rcases q with ⟨f | s, d⟩ | ⟨a, d⟩ <;> rfl

theorem Quarter.parity_rigid (q : Quarter) : Rigid.parity q.rigid = (-1) ^ q.carried.length := by
  induction q using of_clockwise with
  | face f => exact f.parity_rigid .clockwise
  | slice s => exact s.parity_rigid .clockwise
  | rotation a => exact a.parity_rigid
  | reverse q ih => rw [parity_reverse, ih, length_carried_reverse]

theorem Quarter.perm_carried (q : Quarter) {p : Sticker} (hp : p.kind? = none) :
    Sequence.perm q.carried p = q.perm p := by
  rw [Sticker.kind?_eq_none_iff] at hp
  rw [hp]
  generalize p.face = g
  rcases q with ⟨f | s, d⟩ | ⟨a, d⟩
  · revert f d g
    decide +kernel
  · revert s d g
    decide +kernel
  · cases d <;> rfl

namespace Sequence

def quarters (s : Sequence) : List Quarter := s.flatMap Move.quarters

/-- The rotations that move the centers as the sequence does. -/
def carried (s : Sequence) : Sequence := s.quarters.flatMap Quarter.carried

def rigid (s : Sequence) : Rigid := ⟨perm s, s.perm_rigid⟩

theorem perm_eq_prod (s : Sequence) : perm s = (s.quarters.map Quarter.perm).prod := by
  induction s with
  | nil => rfl
  | cons m s ih =>
      have hq : quarters (m :: s) = m.quarters ++ quarters s := rfl
      rw [perm_cons, ih, hq, List.map_append, List.prod_append]
      rfl

theorem rigid_eq_prod (s : Sequence) : s.rigid = (s.quarters.map Quarter.rigid).prod := by
  refine Subtype.ext ?_
  rw [Subgroup.val_list_prod, List.map_map]
  exact s.perm_eq_prod

theorem parity_rigid (s : Sequence) : Rigid.parity s.rigid = (-1) ^ s.carried.length := by
  rw [rigid_eq_prod, carried]
  induction s.quarters with
  | nil => exact map_one _
  | cons q qs ih =>
      rw [List.map_cons, List.prod_cons, map_mul, ih, q.parity_rigid, List.flatMap_cons, List.length_append,
        pow_add]

theorem perm_carried (s : Sequence) {p : Sticker} (hp : p.kind? = none) : perm s.carried p = perm s p := by
  rw [perm_eq_prod s, carried]
  induction s.quarters with
  | nil => rfl
  | cons q qs ih =>
      have hk : (perm (qs.flatMap Quarter.carried) p).kind? = none := by
        rw [Rigid.kind? (perm_rigid _), hp]
      rw [List.flatMap_cons, perm_append, List.map_cons, List.prod_cons, Equiv.Perm.mul_apply,
        q.perm_carried hk, ih]
      rfl

theorem exists_eq_quarter (s : Sequence) {m : Move} (hm : m ∈ s.carried) : ∃ a d, m = Axis.quarter a d := by
  obtain ⟨q, -, hq⟩ := List.mem_flatMap.mp hm
  rcases q with ⟨f | s, d⟩ | ⟨a, d⟩
  · cases hq
  · exact ⟨_, _, List.mem_singleton.mp hq⟩
  · exact ⟨_, _, List.mem_singleton.mp hq⟩

/-- A sequence that cubed leaves the edges and corners alone carries evenly many rotations. -/
theorem even_carried {s : Sequence} (h : ∀ p, p.kind? ≠ none → (perm s ^ 3) p = p) :
    Even s.carried.length := by
  have hp : Rigid.parity (s.rigid ^ 3) = 1 := Rigid.parity_eq_one h
  rw [map_pow, parity_rigid, ← pow_mul, neg_one_pow_eq_one_iff_even (by decide), Nat.even_mul] at hp
  exact hp.resolve_right (by decide)

end Sequence
end Blindfold
