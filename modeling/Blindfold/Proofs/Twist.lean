import Mathlib.Algebra.BigOperators.Ring.Finset
import Mathlib.Algebra.Field.ZMod
import Blindfold.Proofs.Parity

/-!
# The twist of the corners

How far a corner is turned in its place is counted modulo three, from its sticker on `U` or `D`. Over all corners
the turns add up to nothing after every sequence (`Sequence.twist_rigid`). So no sequence turns one corner in place
and leaves the others alone: `Rigid.eq_self_of_twist`.
-/

namespace Blindfold

/-! ## How far a corner is turned -/

namespace Sticker

variable {p q : Sticker}

/-- The number of clockwise steps to a corner's sticker from the one that stands for the corner. -/
def tilt (p : Sticker) : ZMod 3 := if p.isHead then 0 else if p.next.isHead then 2 else 1

theorem tilt_of_isHead (h : p.isHead) : p.tilt = 0 := if_pos h

theorem tilt_next (h : p.kind? = some .corner) : p.next.tilt = p.tilt + 1 := by
  revert p
  decide +kernel

theorem pow_tilt_head (h : p.kind? = some .corner) : (next ^ p.tilt.val) p.head = p := by
  revert p
  decide +kernel

theorem head_of_tilt (h : p.kind? = some .corner) (ht : p.tilt = 0) : p.head = p := by
  simpa [ht] using pow_tilt_head h

theorem tilt_pow_next (h : p.kind? = some .corner) (n : Nat) : ((next ^ n) p).tilt = p.tilt + n := by
  induction n with
  | zero => simp
  | succ n ih =>
      have hk : ((next ^ n) p).kind? = some .corner := (Rigid.kind? (Rigid.pow_mem Rigid.next_mem n) p).trans h
      rw [pow_succ', Equiv.Perm.mul_apply, tilt_next hk, ih, Nat.cast_succ, add_assoc]

end Sticker

namespace Rigid

/-- The stickers that stand for the corners. -/
def cornerHeads : Finset Sticker := Finset.univ.filter fun p => p.isHead ∧ p.kind? = some .corner

theorem mem_cornerHeads {p : Sticker} : p ∈ cornerHeads ↔ p.isHead ∧ p.kind? = some .corner := by
  rw [cornerHeads, Finset.mem_filter, and_iff_right (Finset.mem_univ p)]

theorem head_mem_cornerHeads {p : Sticker} (h : p.kind? = some .corner) : p.head ∈ cornerHeads :=
  mem_cornerHeads.mpr ⟨Sticker.isHead_head (h ▸ Option.some_ne_none _), p.kind?_head.trans h⟩

/-- A corner's tilt is kept, and the tilt with which its head arrives is added. -/
theorem tilt_apply (f : Rigid) {p : Sticker} (h : p.kind? = some .corner) :
    (f.val p).tilt = p.tilt + (f.val p.head).tilt := by
  have hf : Commute f.val Sticker.next := Equiv.ext (mem_rigid_iff.mp f.prop)
  have hk : (f.val p.head).kind? = some .corner := (kind? f.prop _).trans (p.kind?_head.trans h)
  calc (f.val p).tilt
      = (f.val ((Sticker.next ^ p.tilt.val) p.head)).tilt := by rw [Sticker.pow_tilt_head h]
    _ = ((Sticker.next ^ p.tilt.val) (f.val p.head)).tilt :=
        congrArg Sticker.tilt (Equiv.congr_fun (hf.pow_right _).eq p.head)
    _ = p.tilt + (f.val p.head).tilt := by
        rw [Sticker.tilt_pow_next hk, ZMod.natCast_zmod_val, add_comm]

theorem heads_mem_cornerHeads_iff (f : Rigid) (p : Sticker) : p ∈ cornerHeads ↔ heads f p ∈ cornerHeads := by
  rw [heads_apply]
  by_cases hp : p.isHead
  · have hk : (f.val p).kind? = p.kind? := kind? f.prop p
    have hn : (f.val p).kind? ≠ none := hk ▸ Sticker.kind?_ne_none_of_isHead hp
    rw [if_pos hp, mem_cornerHeads, mem_cornerHeads, Sticker.kind?_head, hk,
      and_iff_right hp, and_iff_right (Sticker.isHead_head hn)]
  · rw [if_neg hp]

/-! ## All corners together -/

/-- How far the corners are turned in their places, all together. -/
def twist (f : Rigid) : ZMod 3 := ∑ p ∈ cornerHeads, (f.val p).tilt

theorem twist_mul (f g : Rigid) : twist (f * g) = twist f + twist g := by
  -- What `g` brings to a head is turned by `g`, and its own head is turned further by `f`.
  have hstep (p : Sticker) (hp : p ∈ cornerHeads) :
      ((f * g).val p).tilt = (g.val p).tilt + (f.val (heads g p)).tilt := by
    obtain ⟨hh, hk⟩ := mem_cornerHeads.mp hp
    rw [heads_apply, if_pos hh]
    exact tilt_apply f ((kind? g.prop p).trans hk)
  have hsum : ∑ p ∈ cornerHeads, (f.val (heads g p)).tilt = twist f :=
    Finset.sum_equiv (heads g) (heads_mem_cornerHeads_iff g) fun _ _ => rfl
  rw [twist, Finset.sum_congr rfl hstep, Finset.sum_add_distrib, hsum, add_comm]
  rfl

theorem twist_one : twist 1 = 0 :=
  Finset.sum_eq_zero fun _ hp => Sticker.tilt_of_isHead (mem_cornerHeads.mp hp).1

theorem twist_inv (f : Rigid) : twist f⁻¹ = -twist f := by
  rw [eq_neg_iff_add_eq_zero, ← twist_mul, inv_mul_cancel, twist_one]

end Rigid

/-- A quarter turn turns as many corners one way as the other. -/
theorem Quarter.twist_rigid (q : Quarter) : Rigid.twist q.rigid = 0 := by
  induction q using of_clockwise with
  | face f => revert f; decide +kernel
  | slice s => revert s; decide +kernel
  | rotation a => revert a; decide +kernel
  | reverse q ih => rw [q.rigid_reverse, Rigid.twist_inv, ih, neg_zero]

theorem Sequence.twist_rigid (s : Sequence) : Rigid.twist s.rigid = 0 := by
  rw [rigid_eq_prod]
  induction s.quarters with
  | nil => exact Rigid.twist_one
  | cons q qs ih => rw [List.map_cons, List.prod_cons, Rigid.twist_mul, q.twist_rigid, ih, add_zero]

/-! ## One corner alone -/

namespace Rigid

variable {f : Rigid} {p : Sticker}

theorem twist_eq_tilt (hp : p.kind? = some .corner)
    (h : ∀ q, q.kind? = some .corner → ¬ p.SamePiece q → f.val q = q) : twist f = (f.val p.head).tilt := by
  refine Finset.sum_eq_single p.head (fun q hq hne => ?_) fun hn => absurd (head_mem_cornerHeads hp) hn
  obtain ⟨hh, hk⟩ := mem_cornerHeads.mp hq
  rw [h q hk fun hs => hne ?_, Sticker.tilt_of_isHead hh]
  rw [← hs.head_eq, Sticker.head_of_isHead hh]

/-- A corner that stays in its place while all others are left alone is not turned. -/
theorem eq_self_of_twist (hf : twist f = 0) (hp : p.kind? = some .corner) (hs : p.SamePiece (f.val p))
    (h : ∀ q, q.kind? = some .corner → ¬ p.SamePiece q → f.val q = q) : f.val p = p := by
  rw [twist_eq_tilt hp h] at hf
  have hk : (f.val p.head).kind? = some .corner := (kind? f.prop _).trans (p.kind?_head.trans hp)
  have hhead : f.val p.head = p.head := by
    rw [← Sticker.head_of_tilt hk hf, (samePiece f.prop p.samePiece_head).head_eq, hs.head_eq]
  have htilt : (f.val p).tilt = p.tilt := by
    rw [tilt_apply f hp, hf, add_zero]
  rw [← Sticker.pow_tilt_head ((kind? f.prop p).trans hp), htilt, hs.head_eq, Sticker.pow_tilt_head hp]

end Rigid
end Blindfold
