import Mathlib.Data.List.Forall2
import Blindfold.Comm.Form
import Blindfold.Move.Sequence
import Blindfold.Proofs.Outcome
import Blindfold.Proofs.Words

/-!
# The spelling of moves

A move and a sequence of moves are read back from their canonical text, and this text has no character that
stands for more than moves.
-/

namespace Blindfold

theorem Form.isPlain_iff {cs : List Char} : isPlain cs ↔ ∀ c ∈ cs, c ∉ marks := by
  simp [isPlain]

theorem Form.isPlain_append (a b : List Char) : isPlain (a ++ b) = (isPlain a && isPlain b) :=
  List.all_append

theorem Form.isBlank_of_mem_marks {c : Char} (h : c ∈ marks) : Text.isBlank c = false := by
  simp only [marks, List.mem_cons, List.not_mem_nil, or_false] at h
  rcases h with rfl | rfl | rfl | rfl | rfl | rfl | rfl <;> rfl

theorem Form.isPlain_of_isAllBlank {blanks : List Char} (h : Text.isAllBlank blanks) : isPlain blanks :=
  isPlain_iff.mpr fun _ hc hm => Text.not_mem_of_isAllBlank h (isBlank_of_mem_marks hm) hc

/-- A word that may stand among plain moves. -/
structure IsToken (w : List Char) : Prop where
  ne_nil : w ≠ []
  notBlank : w.all (! Text.isBlank ·)
  isPlain : Form.isPlain w

theorem Layer.isToken_symbol (l : Layer) : IsToken l.symbol := by
  rcases l with f | f | s | a
  · cases f <;> exact ⟨List.cons_ne_nil _ _, rfl, rfl⟩
  · cases f <;> exact ⟨List.cons_ne_nil _ _, rfl, rfl⟩
  · cases s <;> exact ⟨List.cons_ne_nil _ _, rfl, rfl⟩
  · cases a <;> exact ⟨List.cons_ne_nil _ _, rfl, rfl⟩

theorem Move.isToken_text (m : Move) : IsToken m.text := by
  obtain ⟨l, turn⟩ := m
  obtain ⟨hn, hb, hp⟩ := l.isToken_symbol
  have hs : turn.suffix.all (! Text.isBlank ·) ∧ Form.isPlain turn.suffix := by
    cases turn <;> exact ⟨rfl, rfl⟩
  constructor
  · exact List.append_ne_nil_of_left_ne_nil hn _
  · rw [text, List.all_append, hb, hs.1, Bool.true_and]
  · rw [text, Form.isPlain_append, hp, hs.2, Bool.true_and]

theorem Move.read_text (m : Move) : read m.text = .ok m := by
  obtain ⟨l, turn⟩ := m
  rcases l with f | f | s | a
  · cases f <;> cases turn <;> rfl
  · cases f <;> cases turn <;> rfl
  · cases s <;> cases turn <;> rfl
  · cases a <;> cases turn <;> rfl

namespace Sequence

theorem read_text (s : Sequence) : read s.text = .ok s := by
  have hw : Text.words s.text = s.map Move.text := by
    refine Text.words_intercalate fun w hw => ?_
    obtain ⟨m, -, rfl⟩ := List.mem_map.mp hw
    exact ⟨m.isToken_text.ne_nil, by simpa using m.isToken_text.notBlank⟩
  rw [read, hw, ofTokens, Outcome.mapM_eq_ok_iff, List.forall₂_map_left_iff, List.forall₂_same]
  exact fun m _ => m.read_text

theorem text_cons (m : Move) (s : Sequence) (hs : s ≠ []) : text (m :: s) = m.text ++ ' ' :: text s := by
  rw [text, List.map_cons, List.intercalate_cons_of_ne_nil (mt List.map_eq_nil_iff.mp hs), List.append_assoc]
  rfl

theorem isPlain_text (s : Sequence) : Form.isPlain s.text := by
  induction s with
  | nil => rfl
  | cons m s ih =>
      cases s with
      | nil => simpa [text] using m.isToken_text.isPlain
      | cons m' s =>
          rw [text_cons m _ (List.cons_ne_nil _ _), Form.isPlain_append, m.isToken_text.isPlain]
          exact ih

theorem read_trim (cs : List Char) : read (Text.trim cs) = read cs := by
  rw [read, read, Text.words_trim]

end Sequence
end Blindfold
