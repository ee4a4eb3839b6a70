import Mathlib.Data.List.Infix
import Mathlib.Logic.Relation
import Blindfold.Proofs.Forms

/-!
# The parts of a text

Whatever form a balanced text has, it is cut into balanced parts. Unbalanced brackets are therefore found at once,
in the whole text, and never again in a part of it: `Comm.parse_eq_unbalanced_iff`.
-/

namespace Blindfold

/-! ## Balanced parts -/

namespace Bracket

variable {depth : Nat} {mark : Char} {cs w l r part : List Char}

theorem forall_prefix_cons {P : List Char → Prop} {c : Char} :
    (∀ before, before <+: c :: w → P before) ↔ P [] ∧ ∀ before, before <+: w → P (c :: before) := by
  simp only [List.prefix_cons_iff]
  constructor
  · intro h
    exact ⟨h [] (.inl rfl), fun before hb => h (c :: before) (.inr ⟨before, rfl, hb⟩)⟩
  · rintro ⟨h0, hs⟩ before (rfl | ⟨before, rfl, hb⟩)
    · exact h0
    · exact hs before hb

/-- A text closes what is open and all of its own when no prefix closes more and the whole closes as much. -/
theorem closes_iff_count : Closes depth w ↔
    (∀ before, before <+: w → before.count ']' ≤ depth + before.count '[') ∧
      w.count ']' = depth + w.count '[' := by
  rw [← closes_iff]
  fun_induction closes depth w with
  | case1 depth => simp [eq_comm (a := 0)]
  | case2 depth w ih =>
      rw [ih, forall_prefix_cons]
      simp [Nat.add_assoc, Nat.add_comm 1]
  | case3 w =>
      -- Nothing is open: the bracket alone is a prefix that closes too much.
      refine iff_of_false Bool.false_ne_true ?_
      rintro ⟨h, -⟩
      have h1 := h [']'] (List.prefix_append _ w)
      simp at h1
  | case4 depth w ih =>
      rw [ih, forall_prefix_cons]
      simp [Nat.add_right_comm]
  | case5 depth c w ho h0 hs ih =>
      have hc : c ≠ ']' := by
        cases depth with
        | zero => exact h0 rfl
        | succ depth => exact hs depth rfl
      rw [ih, forall_prefix_cons]
      simp [show c ≠ '[' from ho, hc]

theorem Closes.stripOuter (h : Closes 0 cs) : Closes 0 (stripOuter cs) := by
  fun_induction Bracket.stripOuter cs with
  | case1 cs text inner _ hb ih => exact ih (isBalanced_iff.mp hb)
  | case2 => exact h.trimStart.trimEnd
  | case3 => exact h.trimStart.trimEnd

/-- A split outside of brackets leaves on its left all that closes what is open. -/
theorem Closes.of_splitAt? (ho : mark ≠ '[') (hc : mark ≠ ']') (h : Closes depth w)
    (hs : splitAt? mark depth w = some (l, r)) : Closes depth l ∧ Closes 0 r := by
  have step {c : Char} {depth next : Nat} {w l : List Char} (hd : depthAfter depth c = next)
      (hs : splitAt? mark depth (c :: w) = some (l, r)) (hm : c ≠ mark ∨ depth ≠ 0) :
      ∃ before, l = c :: before ∧ splitAt? mark next w = some (before, r) := by
    rw [splitAt?, if_neg (by tauto), hd] at hs
    obtain ⟨⟨before, after⟩, hw, he⟩ := Option.map_eq_some_iff.mp hs
    cases he
    exact ⟨before, rfl, hw⟩
  induction h generalizing l with
  | nil => cases hs
  | opening _ ih =>
      obtain ⟨l, rfl, hw⟩ := step rfl hs (.inl ho.symm)
      exact ⟨.opening (ih hw).1, (ih hw).2⟩
  | closing _ ih =>
      obtain ⟨l, rfl, hw⟩ := step rfl hs (.inl hc.symm)
      exact ⟨.closing (ih hw).1, (ih hw).2⟩
  | @other depth w c hco hcc h ih =>
      by_cases hm : c = mark ∧ depth = 0
      · rw [splitAt?, if_pos hm] at hs
        cases hs
        obtain ⟨-, rfl⟩ := hm
        exact ⟨.nil, h⟩
      · obtain ⟨l, rfl, hw⟩ := step (depthAfter_of_ne hco hcc depth) hs (by tauto)
        exact ⟨.other hco hcc (ih hw).1, (ih hw).2⟩

/-- The first piece closes what is open, and every other one is balanced. -/
theorem Closes.cut (h : Closes depth w) :
    ∃ first rest, cut depth w = first :: rest ∧ Closes depth first ∧ ∀ part ∈ rest, Closes 0 part := by
  induction h with
  | nil => exact ⟨[], [], rfl, .nil, nofun⟩
  | @opening depth w _ ih =>
      obtain ⟨first, rest, he, hf, hr⟩ := ih
      cases depth with
      | zero =>
          refine ⟨[], ('[' :: first) :: rest, by rw [Bracket.cut, he, Text.consFirst], .nil, ?_⟩
          exact List.forall_mem_cons.mpr ⟨.opening hf, hr⟩
      | succ depth =>
          exact ⟨'[' :: first, rest, by rw [cut_opening, he, Text.consFirst], .opening hf, hr⟩
  | @closing depth w _ ih =>
      obtain ⟨first, rest, he, hf, hr⟩ := ih
      cases depth with
      | zero =>
          refine ⟨[']'], first :: rest, by rw [Bracket.cut, he], .closing .nil, ?_⟩
          exact List.forall_mem_cons.mpr ⟨hf, hr⟩
      | succ depth =>
          exact ⟨']' :: first, rest, by rw [cut_closing, he, Text.consFirst], .closing hf, hr⟩
  | other ho hc _ ih =>
      obtain ⟨first, rest, he, hf, hr⟩ := ih
      exact ⟨_ :: first, rest, by rw [cut_cons_of_ne ho hc, he, Text.consFirst], .other ho hc hf, hr⟩

theorem Closes.of_mem_segments (h : Closes 0 w) (hp : part ∈ segments w) : Closes 0 part := by
  obtain ⟨first, rest, he, hf, hr⟩ := h.cut
  have hp : part ∈ Bracket.cut 0 w := (List.mem_filter.mp hp).1
  rw [he] at hp
  exact List.forall_mem_cons.mpr ⟨hf, hr⟩ part hp

/-! ## Pieces that meet at brackets -/

/-- Texts side by side, between any two of which there is a bracket: it ends the first or begins the second. -/
inductive Meet : List (List Char) → Prop
  | single (w : List Char) : Meet [w]
  | closing (w : List Char) {ws : List (List Char)} : Meet ws → Meet ((w ++ [']']) :: ws)
  | opening (w v : List Char) {ws : List (List Char)} : Meet (('[' :: v) :: ws) → Meet (w :: ('[' :: v) :: ws)

theorem Meet.consFirst {ws : List (List Char)} (h : Meet ws) (c : Char) : Meet (Text.consFirst c ws) := by
  cases h with
  | single w => exact .single (c :: w)
  | closing w h => exact .closing (c :: w) h
  | opening w v h => exact .opening (c :: w) v h

theorem meet_cut (depth : Nat) (w : List Char) : Meet (cut depth w) := by
  fun_induction cut depth w with
  | case1 => exact .single []
  | case2 rest ih =>
      have h := ih.consFirst '['
      generalize cut 1 rest = ws at h ⊢
      cases ws with
      | nil => exact .opening [] [] h
      | cons w ws => exact .opening [] w h
  | case3 rest ih => exact .closing [] ih
  | case4 depth c rest _ _ ih => exact ih.consFirst c

theorem isAllBlank_or_mem_segments (hp : part ∈ cut 0 w) : Text.isAllBlank part ∨ part ∈ segments w := by
  by_cases hb : Text.isAllBlank part
  · exact .inl hb
  · exact .inr (List.mem_filter.mpr ⟨hp, by simpa using hb⟩)

end Bracket

theorem Form.closes_of_mem_parts {cs part : List Char} (h : Bracket.Closes 0 cs) (hp : part ∈ (ofText cs).parts) :
    Bracket.Closes 0 part := by
  have hf := fits_ofText cs
  generalize ofText cs = form at hf hp
  cases hf with
  | plain => cases hp
  | double body =>
      obtain rfl := List.mem_singleton.mp hp
      cases h with
      | other _ _ h => exact h.of_append_right (Bracket.isBalanced_iff.mp rfl)
  | join op l r hs =>
      have hlr := h.of_splitAt? op.mark_ne_open op.mark_ne_close hs
      obtain rfl | rfl : part = l ∨ part = r := by cases op <;> simpa [Operator.form, parts] using hp
      · exact hlr.1
      · exact hlr.2
  | sideBySide => exact h.of_mem_segments hp
  | malformed => cases hp

/-! ## Calls -/

namespace Comm

variable {cs whole part : List Char} {e : CommError}

/-- The second text is one of the parts on which the reading of the first goes on. -/
def Calls (whole part : List Char) : Prop :=
  Bracket.Closes 0 whole ∧ part ∈ (Form.ofText (Bracket.stripOuter whole)).parts

theorem Calls.closes (h : Calls whole part) : Bracket.Closes 0 part :=
  Form.closes_of_mem_parts h.1.stripOuter h.2

theorem Calls.length_lt (h : Calls whole part) : part.length < whole.length :=
  Nat.lt_of_lt_of_le (Form.length_lt_of_mem_parts h.2) (Bracket.length_stripOuter_le whole)

/-- A balanced text fails over a move, for want of a form, or with one of its parts. -/
theorem error_of_read (hc : Bracket.Closes 0 cs) (h : read cs = .error e) :
    (∃ i, e = .illegalMove i) ∨ (∃ text, e = .malformed text) ∨ ∃ part, Calls cs part ∧ read part = .error e := by
  rw [read_eq hc] at h
  have hcalls : ∀ part ∈ (Form.ofText (Bracket.stripOuter cs)).parts, Calls cs part := fun _ hp => ⟨hc, hp⟩
  have hf := Form.fits_ofText (Bracket.stripOuter cs)
  generalize Form.ofText (Bracket.stripOuter cs) = form at h hcalls hf
  generalize Bracket.stripOuter cs = text at h hf
  cases hf with
  | plain =>
      rw [readAs, readMoves] at h
      split at h
      · cases h
      · cases h
        exact .inl ⟨_, rfl⟩
  | double body =>
      rcases Outcome.bind_eq_error_iff.mp h with h | ⟨_, _, h⟩
      · exact .inr (.inr ⟨body, hcalls body (by simp [Form.parts]), h⟩)
      · cases h
  | join op l r _ =>
      rw [readAs_form] at h
      rcases Outcome.bind_eq_error_iff.mp h with h | ⟨_, _, h⟩
      · exact .inr (.inr ⟨l, hcalls l (by cases op <;> simp [Operator.form, Form.parts]), h⟩)
      · rcases Outcome.bind_eq_error_iff.mp h with h | ⟨_, _, h⟩
        · exact .inr (.inr ⟨r, hcalls r (by cases op <;> simp [Operator.form, Form.parts]), h⟩)
        · cases h
  | sideBySide =>
      rcases Outcome.bind_eq_error_iff.mp h with h | ⟨_, _, h⟩
      · obtain ⟨before, part, after, he, -, h⟩ := Outcome.mapM_eq_error_iff.mp h
        exact .inr (.inr ⟨part, hcalls part (by simp [Form.parts, he]), h⟩)
      · cases h
  | malformed =>
      cases h
      exact .inr (.inl ⟨_, rfl⟩)

theorem read_ne_unbalanced (h : Bracket.Closes 0 cs) (u : String) : read cs ≠ .error (.unbalanced u) := by
  -- On the length: whatever form the text has, the parts on which reading goes on are shorter and balanced.
  induction hn : cs.length using Nat.strong_induction_on generalizing cs with
  | _ n ih =>
      intro hr
      rcases error_of_read h hr with ⟨_, he⟩ | ⟨_, he⟩ | ⟨part, hp, hr⟩
      · cases he
      · cases he
      · exact ih _ (hn ▸ hp.length_lt) hp.closes rfl hr

theorem read_eq_unbalanced_iff {u : String} :
    read cs = .error (.unbalanced u) ↔ u = String.ofList cs ∧ ¬ Bracket.Closes 0 cs := by
  by_cases h : Bracket.Closes 0 cs
  · exact iff_of_false (read_ne_unbalanced h u) fun hu => hu.2 h
  · rw [read, if_neg (mt Bracket.isBalanced_iff.mp h)]
    simp [h, eq_comm]

/-- Reading blames the brackets of a text when a part of it from the start closes more than it opens or the whole
does not open as many as it closes, and it blames those of the whole text. No part on which reading goes on is ever
blamed. -/
theorem parse_eq_unbalanced_iff (t : String) :
    (∀ u, parse t = .error (.unbalanced u) ↔ u = t ∧
      ((∃ before, before <+: t.toList ∧ before.count '[' < before.count ']') ∨
        t.toList.count '[' ≠ t.toList.count ']')) ∧
    ∀ part, Relation.TransGen Calls t.toList part → ∀ u, read part ≠ .error (.unbalanced u) := by
  constructor
  · intro u
    rw [parse, read_eq_unbalanced_iff, String.ofList_toList, Bracket.closes_iff_count, not_and_or]
    simp only [Nat.zero_add, not_forall, Nat.not_le, exists_prop, ne_comm]
  · intro part hp
    obtain ⟨_, -, hp⟩ := Relation.TransGen.tail'_iff.mp hp
    exact read_ne_unbalanced hp.closes

theorem parse_eq_unbalanced_iff_double :
    parse "]R, U[" = .error (.unbalanced "]R, U[") ∧
      Relation.TransGen Calls "[(R U)2, D]".toList "R U".toList ∧
      ∀ u, read "R U".toList ≠ .error (.unbalanced u) := by
  have outer : Calls "[(R U)2, D]".toList "(R U)2".toList := ⟨Bracket.isBalanced_iff.mp rfl, by decide +kernel⟩
  have inner : Calls "(R U)2".toList "R U".toList := ⟨Bracket.isBalanced_iff.mp rfl, by decide +kernel⟩
  have calls := Relation.TransGen.tail (.single outer) inner
  refine ⟨?_, calls, (parse_eq_unbalanced_iff "[(R U)2, D]").2 _ calls⟩
  exact ((parse_eq_unbalanced_iff "]R, U[").1 _).mpr ⟨rfl, .inl ⟨[']'], by decide, by decide⟩⟩

end Comm
end Blindfold
