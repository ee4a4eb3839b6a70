import Mathlib.Data.List.Forall2
import Blindfold.Proofs.Leaves
import Blindfold.Proofs.Wrapping

/-!
# Gaps

Between two neighbours in a text is a gap when one of them is an end of the text or a mark. Texts that differ in the
blanks in their gaps only are alike (`Text.Alike`); so are the texts that are left of them without their ends or their
outer brackets, and the parts into which they are split or cut.
-/

namespace Blindfold
namespace Text

/-- Blanks may be put between two neighbours in a text; `none` is an end of the text. -/
inductive IsGap : (left right : Option Char) → Prop
  | start (right : Option Char) : IsGap none right
  | stop (left : Option Char) : IsGap left none
  | after {c : Char} (right : Option Char) : c ∈ singleMarks → IsGap (some c) right
  | before (left : Option Char) {c : Char} : c ∈ Form.marks → IsGap left (some c)

/-- A text, and the same text with blanks in one of its gaps. -/
inductive Spaced : List Char → List Char → Prop
  | insert {l r b : List Char} : IsGap l.getLast? r.head? → isAllBlank b → Spaced (l ++ r) (l ++ b ++ r)

/-- Both texts have the same characters, and the same blanks but for those in gaps; `prev` is what stands before. -/
inductive Alike : (prev : Option Char) → List Char → List Char → Prop
  | blanks {prev : Option Char} {b b' : List Char} : isAllBlank b → isAllBlank b' → Alike prev b b'
  | cons {prev : Option Char} {b b' w w' : List Char} {c : Char} : isAllBlank b → isAllBlank b' →
      isBlank c = false → b = b' ∨ IsGap prev (some c) → Alike (some c) w w' → Alike prev (b ++ c :: w) (b' ++ c :: w')

variable {prev : Option Char} {b b' blanks body inner l r w w' : List Char} {c d mark : Char}

theorem singleMarks_subset_marks : singleMarks ⊆ Form.marks := by decide

theorem not_isGap (hc : c ∉ singleMarks) (hd : d ∉ Form.marks) : ¬ IsGap (some c) (some d) := by
  intro h
  cases h with
  | after _ h => exact hc h
  | before _ h => exact hd h

/-! ## Putting blanks into gaps -/

namespace Alike

theorem start (h : Alike prev w w') : Alike none w w' := by
  cases h with
  | blanks hb hb' => exact .blanks hb hb'
  | cons hb hb' hc _ h => exact .cons hb hb' hc (.inr (.start _)) h

theorem symm (h : Alike prev w w') : Alike prev w' w := by
  induction h with
  | blanks hb hb' => exact .blanks hb' hb
  | cons hb hb' hc hg _ ih => exact .cons hb' hb hc (hg.imp_left Eq.symm) ih

theorem blanks_append (hb : isAllBlank b) (hb' : isAllBlank b') (h : b = b' ∨ ∀ right, IsGap prev right)
    (w : List Char) : Alike prev (b ++ w) (b' ++ w) := by
  induction w generalizing prev b b' with
  | nil => simpa using .blanks hb hb'
  | cons c w ih =>
      cases hc : isBlank c with
      | false => exact .cons hb hb' hc (h.imp_right fun h => h _) (ih (b := []) rfl rfl (.inl rfl))
      | true =>
          have hi := ih (isAllBlank_append_singleton hb hc) (isAllBlank_append_singleton hb' hc)
            (h.imp_left (congrArg (· ++ [c])))
          simpa using hi

theorem refl (prev : Option Char) (w : List Char) : Alike prev w w := blanks_append (b := []) rfl rfl (.inl rfl) w

/-- Blanks `b` that were met so far are kept apart, as they may be all that stands before the gap. -/
theorem insert (hb : isAllBlank b) (hi : isAllBlank blanks) (hg : IsGap ((b ++ l).getLast?.or prev) r.head?) :
    Alike prev (b ++ (l ++ r)) (b ++ (l ++ blanks ++ r)) := by
  have hbi : isAllBlank (b ++ blanks) := by simpa [isAllBlank] using And.intro hb hi
  induction l generalizing prev b with
  | nil =>
      have free (h : ∀ right, IsGap prev right) : Alike prev (b ++ r) (b ++ blanks ++ r) :=
        blanks_append hb hbi (.inr h) r
      simp only [List.append_nil, List.nil_append, ← List.append_assoc] at hg ⊢
      generalize hleft : b.getLast?.or prev = left at hg
      generalize hright : r.head? = right at hg
      cases hg with
      | start =>
          rw [(Option.or_eq_none_iff.mp hleft).2] at free ⊢
          exact free .start
      | stop =>
          obtain rfl := List.head?_eq_none_iff.mp hright
          simpa using .blanks hb hbi
      | @after c _ hm =>
          -- A mark is not blank: it is not the last of the blanks `b`, and so it stands before them.
          have hc : isBlank c = false := Form.isBlank_of_mem_marks (singleMarks_subset_marks hm)
          have hlast : b.getLast? ≠ some c := fun h => not_mem_of_isAllBlank hb hc (List.mem_of_getLast? h)
          rw [((Option.or_eq_some_iff.mp hleft).resolve_left hlast).2] at free ⊢
          exact free fun _ => .after _ hm
      | before _ hm =>
          obtain ⟨r, rfl⟩ := List.head?_eq_some_iff.mp hright
          exact .cons hb hbi (Form.isBlank_of_mem_marks hm) (.inr (.before _ hm)) (refl _ _)
  | cons c l ih =>
      cases hc : isBlank c with
      | false =>
          refine .cons hb hb hc (.inl rfl) ?_
          have hl : ((b ++ c :: l).getLast?.or prev) = ([] ++ l).getLast?.or (some c) := by
            cases l.getLast? <;> simp [List.getLast?_append, List.getLast?_cons, *]
          exact ih (b := []) rfl (hl ▸ hg) hi
      | true =>
          have hl := ih (isAllBlank_append_singleton hb hc) (by simpa using hg) (by simpa [isAllBlank, hc] using hbi)
          simpa using hl

end Alike

theorem Spaced.alike (h : Spaced w w') : Alike none w w' := by
  cases h with
  | insert hg hi => exact .insert (b := []) rfl hi (by simpa using hg)

/-! ## Parts of texts that are alike -/

namespace Alike

theorem isAllBlank_eq (h : Alike prev w w') : isAllBlank w = isAllBlank w' := by
  cases h with
  | blanks hb hb' => rw [hb, hb']
  | cons _ _ hc _ _ => simp [isAllBlank, hc]

theorem split (h : Alike prev (l ++ c :: r) w) (hc : isBlank c = false) :
    ∃ l' r', w = l' ++ c :: r' ∧ Alike prev l l' ∧ Alike (some c) r r' := by
  generalize he : l ++ c :: r = v at h
  induction h generalizing l with
  | blanks hb _ => exact absurd (he ▸ List.mem_append_cons_self) (not_mem_of_isAllBlank hb hc)
  | @cons prev b b' v w d hb hb' hd hg h ih =>
      rcases List.append_eq_append_iff.mp he with ⟨a, rfl, ha⟩ | ⟨a, rfl, ha⟩
      · cases a with
        | nil =>
            cases ha
            exact ⟨b', w, rfl, .blanks (by simpa using hb) hb', h⟩
        | cons e a =>
            -- The blanks before `d` would have `c` among them.
            cases ha
            exact absurd List.mem_append_cons_self (not_mem_of_isAllBlank hb hc)
      · cases a with
        | nil =>
            cases ha
            exact ⟨b', w, rfl, by simpa using .blanks hb hb', h⟩
        | cons e a =>
            cases ha
            obtain ⟨l', r', rfl, hl, hr⟩ := ih rfl
            exact ⟨b' ++ d :: l', r', by simp, .cons hb hb' hd hg hl, hr⟩

theorem tail (h : Alike prev (c :: r) w) (hc : isBlank c = false) (hg : ¬ IsGap prev (some c)) :
    ∃ r', w = c :: r' ∧ Alike (some c) r r' := by
  generalize he : c :: r = v at h
  cases h with
  | blanks hb _ => exact absurd (he ▸ List.mem_cons_self) (not_mem_of_isAllBlank hb hc)
  | @cons _ b b' v w d hb hb' hd hbb h =>
      cases b with
      | nil =>
          cases he
          obtain rfl := hbb.resolve_right hg
          exact ⟨w, rfl, h⟩
      | cons e b =>
          cases he
          exact absurd List.mem_cons_self (not_mem_of_isAllBlank hb hc)

theorem trim_eq_group (h : Alike prev (Bracket.group inner) w) :
    ∃ inner', trim w = Bracket.group inner' ∧ Alike none inner inner' := by
  obtain ⟨l, v, rfl, hl, h⟩ := h.split (l := []) rfl
  obtain ⟨inner', r, rfl, hi, hr⟩ := h.split rfl
  have ht := trim_between hl.isAllBlank_eq.symm hr.isAllBlank_eq.symm (Bracket.group inner')
  rw [Bracket.trim_group] at ht
  exact ⟨inner', by simpa [Bracket.group] using ht, hi.start⟩

theorem trim_eq_double (h : Alike prev ('(' :: (body ++ [')', '2'])) w) :
    ∃ body', trim w = '(' :: (body' ++ [')', '2']) ∧ Alike none body body' := by
  obtain ⟨l, v, rfl, hl, h⟩ := h.split (l := []) rfl
  obtain ⟨body', v, rfl, hbody, h⟩ := h.split rfl
  obtain ⟨r, rfl, hr⟩ := h.tail rfl (not_isGap (by decide) (by decide))
  have ht := trim_between hl.isAllBlank_eq.symm hr.isAllBlank_eq.symm ('(' :: (body' ++ [')', '2']))
  rw [show body' ++ [')', '2'] = body' ++ [')'] ++ ['2'] by simp, trim_cons_append rfl rfl] at ht
  exact ⟨body', by simpa using ht, hbody.start⟩

/-! ## Trimming and brackets -/

theorem trimEnd (h : Alike prev w w') : Alike prev (trimEnd w) (trimEnd w') := by
  induction h with
  | blanks hb hb' =>
      rw [trimEnd_of_isAllBlank hb, trimEnd_of_isAllBlank hb']
      exact .blanks rfl rfl
  | cons hb hb' hc hg _ ih =>
      rw [trimEnd_append_cons hc, trimEnd_append_cons hc]
      exact .cons hb hb' hc hg ih

theorem trimStart (h : Alike prev w w') : Alike none (trimStart w) (trimStart w') := by
  cases h with
  | blanks hb hb' =>
      rw [trimStart_of_isAllBlank hb, trimStart_of_isAllBlank hb']
      exact .blanks rfl rfl
  | cons hb hb' hc _ h =>
      rw [trimStart_blanks_append hb, trimStart_blanks_append hb']
      simpa [Text.trimStart, hc] using .cons (b := []) rfl rfl hc (.inl rfl) h

theorem trim (h : Alike prev w w') : Alike none (trim w) (trim w') := h.trimStart.trimEnd

theorem closes_eq (h : Alike prev w w') (depth : Nat) : Bracket.closes depth w = Bracket.closes depth w' := by
  have skip {b : List Char} (hb : isAllBlank b) (depth : Nat) (w : List Char) :
      Bracket.closes depth (b ++ w) = Bracket.closes depth w := (Bracket.closes_blanks hb).closes_append depth w
  induction h generalizing depth with
  | blanks hb hb' => simpa using (skip hb depth []).trans (skip hb' depth []).symm
  | @cons _ _ _ _ _ c hb hb' _ _ _ ih =>
      rw [skip hb, skip hb']
      by_cases ho : c = '['
      · subst ho
        exact ih (depth + 1)
      · by_cases hc : c = ']'
        · subst hc
          cases depth with
          | zero => rfl
          | succ depth => exact ih depth
        · rw [Bracket.closes_cons_of_ne ho hc, Bracket.closes_cons_of_ne ho hc, ih]

theorem closes (h : Alike prev w w') {depth : Nat} (hc : Bracket.Closes depth w) : Bracket.Closes depth w' := by
  rw [← Bracket.closes_iff] at hc ⊢
  rwa [← h.closes_eq]

/-- Brackets are removed in pairs, from both texts at once. -/
theorem of_wraps {core : List Char} {n : Nat} (h : Bracket.Wraps core n w) (hc : Bracket.Closes 0 core)
    (ht : Text.trim core = core) (hn : ∀ inner, Bracket.Closes 0 inner → core ≠ Bracket.group inner)
    (ha : Alike prev w w') : Alike none core (Bracket.stripOuter w') := by
  induction h generalizing prev w' with
  | blanks hl hr =>
      have ha := ha.trim
      rw [trim_between hl hr, ht] at ha
      rwa [Bracket.stripOuter_eq_trim]
      intro inner' hi' hc'
      rw [hi'] at ha
      obtain ⟨inner, hi, hinner⟩ := ha.symm.trim_eq_group
      exact hn inner (hinner.closes hc') (ht.symm.trans hi)
  | @group n w l r h hl hr ih =>
      have ha := ha.trim
      rw [trim_between hl hr, Bracket.trim_group] at ha
      obtain ⟨inner, hi, hinner⟩ := ha.trim_eq_group
      rw [trim_trim, ← Bracket.trim_group] at hi
      rw [Bracket.stripOuter_congr hi, Bracket.stripOuter_group (hinner.closes (h.closes hc))]
      exact ih hinner

theorem stripOuter (h : Alike prev w w') (hc : Bracket.Closes 0 w) :
    Alike none (Bracket.stripOuter w) (Bracket.stripOuter w') := by
  obtain ⟨n, hw, hn⟩ := Bracket.exists_wraps w
  exact h.of_wraps hw hc.stripOuter (Bracket.trim_stripOuter w) hn

/-! ## Splits and segments -/

theorem rel_splitAt? (hm : isBlank mark = false) (h : Alike prev w w') (depth : Nat) :
    Option.Rel (fun p q => Alike prev p.1 q.1 ∧ Alike none p.2 q.2)
      (Bracket.splitAt? mark depth w) (Bracket.splitAt? mark depth w') := by
  induction h generalizing depth with
  | blanks hb hb' => simp only [Bracket.splitAt?_blanks hm hb, Bracket.splitAt?_blanks hm hb', Option.rel_none_none]
  | @cons _ _ _ w w' c hb hb' hc hg h ih =>
      rw [Bracket.splitAt?_blanks_append hm hb, Bracket.splitAt?_blanks_append hm hb', Bracket.splitAt?,
        Bracket.splitAt?]
      split
      · exact .some ⟨by simpa using .blanks hb hb', h.start⟩
      · have hr := ih (Bracket.depthAfter depth c)
        generalize Bracket.splitAt? mark (Bracket.depthAfter depth c) w = x at hr
        generalize Bracket.splitAt? mark (Bracket.depthAfter depth c) w' = y at hr
        cases hr with
        | none => exact .none
        | some hr => exact .some ⟨.cons hb hb' hc hg hr.1, hr.2⟩

/-- The pieces of two texts are alike one by one; only the first still has `prev` before it. -/
theorem cut (h : Alike prev w w') (depth : Nat) : ∃ first first' rest rest', Bracket.cut depth w = first :: rest ∧
    Bracket.cut depth w' = first' :: rest' ∧ Alike prev first first' ∧ List.Forall₂ (Alike none) rest rest' := by
  induction h generalizing depth with
  | @blanks _ b b' hb hb' =>
      have cut_nil : Bracket.cut depth [] = [[]] := by rw [Bracket.cut]
      refine ⟨b, b', [], [], ?_, ?_, .blanks hb hb', .nil⟩
      · simpa using Bracket.cut_blanks_append hb cut_nil
      · simpa using Bracket.cut_blanks_append hb' cut_nil
  | @cons _ b b' w w' c hb hb' hc hg h ih =>
      obtain ⟨next, hs⟩ := Bracket.cut_cons depth c
      obtain ⟨first, first', rest, rest', hw, hw', hf, hr⟩ := ih next
      rcases hs with hs | hs | hs
      · have hs {v first : List Char} {rest : List (List Char)} (hv : Bracket.cut next v = first :: rest) :
            Bracket.cut depth (c :: v) = [] :: (c :: first) :: rest := by rw [hs, hv, consFirst]
        refine ⟨b, b', (c :: first) :: rest, (c :: first') :: rest', ?_, ?_, .blanks hb hb', .cons ?_ hr⟩
        · simpa using Bracket.cut_blanks_append hb (hs hw)
        · simpa using Bracket.cut_blanks_append hb' (hs hw')
        · exact .cons (b := []) rfl rfl hc (.inl rfl) hf
      · refine ⟨b ++ [c], b' ++ [c], first :: rest, first' :: rest', ?_, ?_, ?_, .cons hf.start hr⟩
        · exact Bracket.cut_blanks_append hb (by rw [hs, hw])
        · exact Bracket.cut_blanks_append hb' (by rw [hs, hw'])
        · exact .cons hb hb' hc hg (.refl _ _)
      · refine ⟨b ++ c :: first, b' ++ c :: first', rest, rest', ?_, ?_, .cons hb hb' hc hg hf, hr⟩
        · exact Bracket.cut_blanks_append hb (by rw [hs, hw, consFirst])
        · exact Bracket.cut_blanks_append hb' (by rw [hs, hw', consFirst])

theorem segments (h : Alike none w w') : List.Forall₂ (Alike none) (Bracket.segments w) (Bracket.segments w') := by
  obtain ⟨first, first', rest, rest', hw, hw', hf, hr⟩ := h.cut 0
  rw [Bracket.segments, Bracket.segments, hw, hw']
  refine List.rel_filter (fun u v huv => ?_) (.cons hf hr)
  simp only [huv.isAllBlank_eq]

theorem startsWithTurn_eq (h : Alike prev w w') : Form.startsWithTurn w = Form.startsWithTurn w' := by
  have skip {b : List Char} (hb : isAllBlank b) (w : List Char) :
      Form.startsWithTurn (b ++ w) = Form.startsWithTurn w := by
    rw [Form.startsWithTurn, trimStart_blanks_append hb]
    rfl
  cases h with
  | blanks hb hb' => simpa using (skip hb []).trans (skip hb' []).symm
  | @cons _ _ _ w w' c hb hb' hc _ _ =>
      have start (w : List Char) : Form.startsWithTurn (c :: w) = (c == '2' || c == '\'') := by
        simp only [Form.startsWithTurn, Text.trimStart, List.dropWhile_cons, hc]
        grind
      rw [skip hb, skip hb', start, start]

end Alike

end Text
end Blindfold
