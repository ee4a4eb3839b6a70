import Mathlib.Data.List.DropRight
import Mathlib.Data.List.TakeWhile
import Blindfold.Text.Blank

/-!
# Blanks and words

Blanks around a text change neither its words nor what is left when it is trimmed. A blank anywhere divides
the words: `words_append_cons`. There is one way to divide a text into words: `Divided.words_eq`.
-/

namespace Blindfold.Text

section

variable {α : Type} {p : α → Bool} {c : α} {xs : List α}

theorem pieces_ne_nil (p : α → Bool) (xs : List α) : pieces p xs ≠ [] := by
  cases xs with
  | nil => simp [pieces]
  | cons x xs =>
      unfold pieces
      split
      · simp
      · cases pieces p xs <;> simp [consFirst]

theorem consFirst_append (x : α) {xss : List (List α)} (h : xss ≠ []) (yss : List (List α)) :
    consFirst x (xss ++ yss) = consFirst x xss ++ yss := by
  cases xss with
  | nil => exact absurd rfl h
  | cons => rfl

theorem pieces_append_cons (hc : p c) (xs ys : List α) :
    pieces p (xs ++ c :: ys) = pieces p xs ++ pieces p ys := by
  induction xs with
  | nil => simp [pieces, hc]
  | cons x xs ih =>
      rw [List.cons_append, pieces, pieces, ih]
      split
      · rfl
      · exact consFirst_append x (pieces_ne_nil p xs) _

theorem pieces_eq_singleton (h : ∀ x ∈ xs, p x = false) : pieces p xs = [xs] := by
  induction xs with
  | nil => rfl
  | cons x xs ih =>
      rw [List.forall_mem_cons] at h
      rw [pieces, h.1, ih h.2]
      rfl

end

variable {c : Char} {cs blanks : List Char}

theorem isBlank_of_mem (h : isAllBlank blanks) (hc : c ∈ blanks) : isBlank c := List.all_eq_true.mp h c hc

theorem ne_of_isBlank {d : Char} (hc : isBlank c) (hd : isBlank d = false) : c ≠ d := by
  rintro rfl
  exact Bool.eq_false_iff.mp hd hc

theorem not_mem_of_isAllBlank (h : isAllBlank blanks) (hc : isBlank c = false) : c ∉ blanks := fun hm =>
  ne_of_isBlank (isBlank_of_mem h hm) hc rfl

theorem isAllBlank_append_singleton (h : isAllBlank blanks) (hc : isBlank c) : isAllBlank (blanks ++ [c]) := by
  simpa [isAllBlank, hc] using h

/-! ## Words -/

theorem words_append_cons (hc : isBlank c) (xs ys : List Char) :
    words (xs ++ c :: ys) = words xs ++ words ys := by
  rw [words, pieces_append_cons hc, List.filter_append]
  rfl

theorem words_blanks_append (h : isAllBlank blanks) (cs : List Char) : words (blanks ++ cs) = words cs := by
  induction blanks with
  | nil => rfl
  | cons c blanks ih =>
      rw [isAllBlank, List.all_cons, Bool.and_eq_true] at h
      rw [List.cons_append, ← List.nil_append (c :: _), words_append_cons h.1, ih h.2]
      rfl

theorem words_append_blanks (h : isAllBlank blanks) (cs : List Char) : words (cs ++ blanks) = words cs := by
  cases blanks with
  | nil => rw [List.append_nil]
  | cons c blanks =>
      rw [isAllBlank, List.all_cons, Bool.and_eq_true] at h
      have hb : words blanks = [] := by simpa [words, pieces] using words_blanks_append h.2 []
      rw [words_append_cons h.1, hb, List.append_nil]

theorem words_eq_singleton (hne : cs ≠ []) (h : ∀ c ∈ cs, isBlank c = false) : words cs = [cs] := by
  rw [words, pieces_eq_singleton h]
  simp [hne]

/-- Words written with one space between them are read back. -/
theorem words_intercalate {ws : List (List Char)} (h : ∀ w ∈ ws, w ≠ [] ∧ ∀ c ∈ w, isBlank c = false) :
    words ([' '].intercalate ws) = ws := by
  induction ws with
  | nil => rfl
  | cons w ws ih =>
      rw [List.forall_mem_cons] at h
      have hw := words_eq_singleton h.1.1 h.1.2
      cases ws with
      | nil => rwa [List.intercalate_singleton]
      | cons v ws =>
          rw [List.intercalate_cons_cons, List.append_assoc, List.singleton_append,
            words_append_cons (by decide), hw, ih h.2]
          rfl

/-- The text is words with blanks around them, and between any two of them. -/
inductive Divided : List Char → List (List Char) → Prop
  | blanks {b : List Char} : isAllBlank b → Divided b []
  | word {b w r : List Char} {ws : List (List Char)} : isAllBlank b → w ≠ [] → (∀ c ∈ w, isBlank c = false) →
      (∀ c ∈ r.head?, isBlank c) → Divided r ws → Divided (b ++ w ++ r) (w :: ws)

theorem exists_divided (cs : List Char) : ∃ ws, Divided cs ws := by
  induction cs with
  | nil => exact ⟨[], .blanks rfl⟩
  | cons c cs ih =>
      obtain ⟨ws, h⟩ := ih
      cases hc : isBlank c with
      | true =>
          have hb {b : List Char} (hb : isAllBlank b) : isAllBlank (c :: b) := by simpa [isAllBlank, hc] using hb
          cases h with
          | blanks h => exact ⟨[], .blanks (hb h)⟩
          | word h hne hw hr hd => exact ⟨_, .word (hb h) hne hw hr hd⟩
      | false =>
          have alone (hh : ∀ d ∈ cs.head?, isBlank d) : Divided (c :: cs) ([c] :: ws) :=
            .word (b := []) (w := [c]) rfl (by simp) (by simp [hc]) hh h
          cases h with
          | blanks h => exact ⟨_, alone fun d hd => isBlank_of_mem h (List.mem_of_mem_head? hd)⟩
          | @word b w r ws h hne hw hr hd =>
              cases b with
              | nil => exact ⟨_, .word (b := []) (w := c :: w) rfl (by simp) (by simpa [hc] using hw) hr hd⟩
              | cons d b => exact ⟨_, alone (by simpa using isBlank_of_mem h List.mem_cons_self)⟩

theorem Divided.words_eq {ws : List (List Char)} (h : Divided cs ws) : words cs = ws := by
  induction h with
  | blanks h => simpa [words, pieces] using words_append_blanks h []
  | @word b w r ws hb hne hw hr _ ih =>
      rw [List.append_assoc, words_blanks_append hb, ← ih]
      cases r with
      | nil => simpa [words, pieces] using words_eq_singleton hne hw
      | cons c r =>
          have hc : isBlank c := hr c rfl
          have hr : words (c :: r) = words r := words_append_cons hc [] r
          rw [words_append_cons hc, words_eq_singleton hne hw, hr, List.singleton_append]

theorem divided_words (cs : List Char) : Divided cs (words cs) := by
  obtain ⟨ws, h⟩ := exists_divided cs
  rwa [h.words_eq]

/-! ## Trimming -/

theorem trimStart_append_cons (hc : isBlank c = false) (xs ys : List Char) :
    trimStart (xs ++ c :: ys) = trimStart xs ++ c :: ys := by
  induction xs with
  | nil => simp [trimStart, hc]
  | cons x xs ih =>
      by_cases hx : isBlank x
      · simpa [trimStart, hx] using ih
      · simp [trimStart, hx]

theorem trimEnd_append_cons (hc : isBlank c = false) (xs ys : List Char) :
    trimEnd (xs ++ c :: ys) = xs ++ c :: trimEnd ys := by
  have h := trimStart_append_cons hc ys.reverse xs.reverse
  simp only [trimStart] at h
  simp [trimEnd, h]

theorem trim_append_cons (hc : isBlank c = false) (xs ys : List Char) :
    trim (xs ++ c :: ys) = trimStart xs ++ c :: trimEnd ys := by
  rw [trim, trimStart_append_cons hc, trimEnd_append_cons hc]

theorem trim_cons_append (hc : isBlank c = false) {d : Char} (hd : isBlank d = false) (cs : List Char) :
    trim (c :: (cs ++ [d])) = c :: (cs ++ [d]) := by
  have h := trim_append_cons hc [] (cs ++ [d])
  rw [trimEnd_append_cons hd] at h
  exact h

theorem trim_sublist (cs : List Char) : (trim cs).Sublist cs := by
  have h := (List.dropWhile_sublist (l := (trimStart cs).reverse) isBlank).reverse
  rw [List.reverse_reverse] at h
  exact h.trans (List.dropWhile_sublist isBlank)

theorem exists_trimStart (cs : List Char) : ∃ blanks, isAllBlank blanks ∧ cs = blanks ++ trimStart cs :=
  ⟨cs.takeWhile isBlank, List.all_takeWhile, List.takeWhile_append_dropWhile.symm⟩

theorem exists_trimEnd (cs : List Char) : ∃ blanks, isAllBlank blanks ∧ cs = trimEnd cs ++ blanks := by
  obtain ⟨blanks, hb, he⟩ := exists_trimStart cs.reverse
  refine ⟨blanks.reverse, ?_, ?_⟩
  · simpa [isAllBlank] using hb
  · simpa [trimEnd, trimStart] using congrArg List.reverse he

theorem exists_trim (cs : List Char) : ∃ l r, isAllBlank l ∧ isAllBlank r ∧ cs = l ++ trim cs ++ r := by
  obtain ⟨l, hl, hcs⟩ := exists_trimStart cs
  obtain ⟨r, hr, ht⟩ := exists_trimEnd (trimStart cs)
  exact ⟨l, r, hl, hr, by rw [trim, List.append_assoc, ← ht, ← hcs]⟩

/-- What holds of the trimmed text, and does not change with blanks at either end, holds of the text. -/
theorem of_trim {P : List Char → Prop} (left : ∀ blanks w, isAllBlank blanks → P w → P (blanks ++ w))
    (right : ∀ w blanks, isAllBlank blanks → P w → P (w ++ blanks)) {cs : List Char} (h : P (trim cs)) : P cs := by
  obtain ⟨l, r, hl, hr, hcs⟩ := exists_trim cs
  rw [hcs]
  exact right _ _ hr (left _ _ hl h)

theorem words_trim (cs : List Char) : words (trim cs) = words cs := by
  refine of_trim (P := fun w => words (trim cs) = words w) ?left ?right rfl
  case left => exact fun _ w hb h => h.trans (words_blanks_append hb w).symm
  case right => exact fun w _ hb h => h.trans (words_append_blanks hb w).symm

theorem trim_trimStart (cs : List Char) : trim (trimStart cs) = trim cs := by
  rw [trim, trim, trimStart, trimStart, List.dropWhile_idempotent]

theorem trimEnd_trimEnd (cs : List Char) : trimEnd (trimEnd cs) = trimEnd cs := by
  rw [trimEnd, trimEnd, List.reverse_reverse, List.dropWhile_idempotent]

theorem exists_append_cons (h : ¬ isAllBlank cs) : ∃ xs c ys, isBlank c = false ∧ cs = xs ++ c :: ys := by
  rw [isAllBlank, List.all_eq_true] at h
  push Not at h
  obtain ⟨c, hm, hc⟩ := h
  obtain ⟨xs, ys, rfl⟩ := List.append_of_mem hm
  exact ⟨xs, c, ys, Bool.eq_false_iff.mpr hc, rfl⟩

theorem trimStart_of_isAllBlank (h : isAllBlank cs) : trimStart cs = [] :=
  List.dropWhile_eq_nil_iff.mpr fun _ => isBlank_of_mem h

theorem trimEnd_of_isAllBlank (h : isAllBlank cs) : trimEnd cs = [] := by
  rw [trimEnd, List.dropWhile_eq_nil_iff.mpr fun _ hc => isBlank_of_mem h (List.mem_reverse.mp hc)]
  rfl

theorem trim_trimEnd (cs : List Char) : trim (trimEnd cs) = trim cs := by
  by_cases h : isAllBlank cs
  · rw [trimEnd_of_isAllBlank h, trim, trim, trimStart_of_isAllBlank h]
    rfl
  · obtain ⟨xs, c, ys, hc, rfl⟩ := exists_append_cons h
    rw [trimEnd_append_cons hc, trim_append_cons hc, trim_append_cons hc, trimEnd_trimEnd]

theorem trim_trim (cs : List Char) : trim (trim cs) = trim cs := (trim_trimEnd _).trans (trim_trimStart cs)

theorem trimStart_blanks_append (h : isAllBlank blanks) (cs : List Char) :
    trimStart (blanks ++ cs) = trimStart cs :=
  List.dropWhile_append_of_pos (List.all_eq_true.mp h)

theorem trimEnd_append_blanks (h : isAllBlank blanks) (cs : List Char) : trimEnd (cs ++ blanks) = trimEnd cs := by
  have hr := trimStart_blanks_append (by simpa [isAllBlank] using h : isAllBlank blanks.reverse) cs.reverse
  simp only [trimStart] at hr
  simp [trimEnd, hr]

theorem trim_between {l r : List Char} (hl : isAllBlank l) (hr : isAllBlank r) (cs : List Char) :
    trim (l ++ cs ++ r) = trim cs := by
  rw [List.append_assoc, trim, trimStart_blanks_append hl, ← trim, ← trim_trimEnd, trimEnd_append_blanks hr,
    trim_trimEnd]

theorem trimStart_ne_nil (h : ¬ isAllBlank cs) : trimStart cs ≠ [] := by
  simpa [trimStart, List.dropWhile_eq_nil_iff, isAllBlank] using h

theorem trimEnd_ne_nil (h : ¬ isAllBlank cs) : trimEnd cs ≠ [] := by
  simpa [trimEnd, List.dropWhile_eq_nil_iff, isAllBlank] using h

theorem trimStart_append {l : List Char} (h : ¬ isAllBlank l) (r : List Char) :
    trimStart (l ++ r) = trimStart l ++ r := by
  obtain ⟨xs, c, ys, hc, rfl⟩ := exists_append_cons h
  rw [List.append_assoc, List.cons_append, trimStart_append_cons hc, trimStart_append_cons hc, List.append_assoc,
    List.cons_append]

theorem trimEnd_append {r : List Char} (h : ¬ isAllBlank r) (l : List Char) :
    trimEnd (l ++ r) = l ++ trimEnd r := by
  obtain ⟨xs, c, ys, hc, rfl⟩ := exists_append_cons h
  rw [← List.append_assoc, trimEnd_append_cons hc, trimEnd_append_cons hc, List.append_assoc]

end Blindfold.Text
