import Blindfold.Proofs.Parts

/-!
# Outer brackets

Square brackets around a whole text, and blanks next to them, change nothing about how it is read
(`Comm.parse_wrapped`). Only brackets that belong together are removed: those of two groups side by side stay.
-/

namespace Blindfold
namespace Bracket

/-- The text in `n` pairs of square brackets, with blanks around it and around every pair. -/
inductive Wraps (core : List Char) : (n : Nat) → List Char → Prop
  | blanks {l r : List Char} : Text.isAllBlank l → Text.isAllBlank r → Wraps core 0 (l ++ core ++ r)
  | group {n : Nat} {w l r : List Char} :
      Wraps core n w → Text.isAllBlank l → Text.isAllBlank r → Wraps core (n + 1) (l ++ group w ++ r)

variable {core w l r cs : List Char} {n : Nat}

theorem Closes.between_blanks (h : Closes 0 w) (hl : Text.isAllBlank l) (hr : Text.isAllBlank r) :
    Closes 0 (l ++ w ++ r) :=
  ((closes_blanks hl).append h).append (closes_blanks hr)

theorem stripOuter_between_blanks (hl : Text.isAllBlank l) (hr : Text.isAllBlank r) (w : List Char) :
    stripOuter (l ++ w ++ r) = stripOuter w :=
  stripOuter_congr (Text.trim_between hl hr w)

namespace Wraps

variable (h : Wraps core n w) (hc : Closes 0 core)

include h hc

theorem closes : Closes 0 w := by
  induction h with
  | blanks hl hr => exact hc.between_blanks hl hr
  | group _ hl hr ih => exact ih.group.between_blanks hl hr

theorem stripOuter_eq : stripOuter w = stripOuter core := by
  induction h with
  | blanks hl hr => exact stripOuter_between_blanks hl hr core
  | group h hl hr ih => rw [stripOuter_between_blanks hl hr, stripOuter_group (h.closes hc), ih]

end Wraps

/-- What is removed from around a text is blanks and pairs of brackets that belong together, and no such pair is
left. -/
theorem exists_wraps (cs : List Char) :
    ∃ n, Wraps (stripOuter cs) n cs ∧ ∀ inner, Closes 0 inner → stripOuter cs ≠ group inner := by
  have stop {cs : List Char} (hs : ∀ inner, interior? (Text.trim cs) = some inner → isBalanced inner = false) :
      ∃ n, Wraps (Text.trim cs) n cs ∧ ∀ inner, Closes 0 inner → Text.trim cs ≠ group inner := by
    obtain ⟨l, r, hl, hr, hcs⟩ := Text.exists_trim cs
    have hw : Wraps (Text.trim cs) 0 (l ++ Text.trim cs ++ r) := .blanks hl hr
    rw [← hcs] at hw
    refine ⟨0, hw, fun inner hc hi => ?_⟩
    rw [← isBalanced_iff, hs inner (interior?_eq_some_iff.mpr hi)] at hc
    cases hc
  fun_induction stripOuter cs with
  | case1 cs text inner hi _ ih =>
      obtain ⟨n, hn, hne⟩ := ih
      obtain ⟨l, r, hl, hr, hcs⟩ := Text.exists_trim cs
      have ht : Text.trim cs = group inner := interior?_eq_some_iff.mp hi
      refine ⟨n + 1, ?_, hne⟩
      rw [hcs, ht]
      exact .group hn hl hr
  | case2 cs text inner hi hb =>
      refine stop fun inner' hi' => ?_
      obtain rfl := Option.some.inj (hi.symm.trans hi')
      exact Bool.eq_false_iff.mpr hb
  | case3 cs text hi =>
      refine stop fun inner hi' => ?_
      cases hi.symm.trans hi'

/-- Brackets at the two ends of a text stay when a balanced part of it ends before. -/
theorem stripOuter_append (h : Closes 0 l) (hl : ¬ Text.isAllBlank l) (hr : ¬ Text.isAllBlank r) :
    stripOuter (l ++ r) = Text.trim (l ++ r) := by
  have ht : Text.trim (l ++ r) = Text.trimStart l ++ Text.trimEnd r := by
    rw [Text.trim, Text.trimStart_append hl, Text.trimEnd_append hr]
  refine stripOuter_eq_trim fun inner hi => ?_
  exact h.trimStart.not_closes_inner (Text.trimStart_ne_nil hl) (Text.trimEnd_ne_nil hr) (ht ▸ hi)

end Bracket

namespace Comm

theorem read_of_wraps {core w : List Char} {n : Nat} (h : Bracket.Wraps core n w) (hc : Bracket.Closes 0 core) :
    read w = read core := by
  rw [read_eq (h.closes hc), read_eq hc, h.stripOuter_eq hc]

/-- Any number of brackets around a balanced text, with blanks between them, makes no difference to what is read or to
the error. Of its own brackets a text loses only pairs that belong together; when it consists of two balanced parts, as
two groups side by side do, it loses none. -/
theorem parse_wrapped {t : String} (h : Bracket.Closes 0 t.toList) :
    (∀ n w, Bracket.Wraps t.toList n w → parse (String.ofList w) = parse t) ∧
    (∃ n, Bracket.Wraps (Bracket.stripOuter t.toList) n t.toList ∧
      ∀ inner, Bracket.Closes 0 inner → Bracket.stripOuter t.toList ≠ Bracket.group inner) ∧
    ∀ l r, t.toList = l ++ r → Bracket.Closes 0 l → ¬ Text.isAllBlank l → ¬ Text.isAllBlank r →
      Bracket.stripOuter t.toList = Text.trim t.toList := by
  refine ⟨fun n w hw => ?_, Bracket.exists_wraps t.toList, fun l r ht hc hl hr => ?_⟩
  · rw [parse, parse, String.toList_ofList, read_of_wraps hw h]
  · rw [ht, Bracket.stripOuter_append hc hl hr]

theorem parse_wrapped_groups : Bracket.Closes 0 "[R] [U Q]".toList ∧
    Bracket.Wraps "[R] [U Q]".toList 2 " [\t[ [R] [U Q]] ]\n".toList ∧
    parse " [\t[ [R] [U Q]] ]\n" = parse "[R] [U Q]" ∧
    Bracket.stripOuter "[R] [U Q]".toList = "[R] [U Q]".toList := by
  have h : Bracket.Closes 0 "[R] [U Q]".toList := Bracket.isBalanced_iff.mp rfl
  have hw : Bracket.Wraps "[R] [U Q]".toList 2 " [\t[ [R] [U Q]] ]\n".toList :=
    .group (l := [' ']) (r := ['\n']) (.group (l := ['\t']) (r := [' ']) (.blanks (l := [' ']) (r := []) rfl rfl) rfl rfl)
      rfl rfl
  obtain ⟨hp, -, hs⟩ := parse_wrapped h
  refine ⟨h, hw, ?_, ?_⟩
  · exact hp 2 _ hw
  · exact hs "[R]".toList " [U Q]".toList rfl (Bracket.isBalanced_iff.mp rfl) (by decide) (by decide)

end Comm
end Blindfold
