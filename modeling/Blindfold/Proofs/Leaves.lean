import Blindfold.Proofs.Parts

/-!
# The moves in a comm text

Reading a comm keeps every move of its text, and their order: the leaves of the comm are what is left of the text
when a blank takes the place of every mark. See `Comm.parse_leaves`.
-/

namespace Blindfold

/-! ## Texts without marks -/

namespace Text

/-- The marks that stand for themselves; a closing round bracket is one only with its `2`. -/
def singleMarks : List Char := ['[', ']', '(', ',', ':', '/']

/-- The text with a space for every mark. -/
def unmarked : List Char → List Char
  | [] => []
  | ')' :: '2' :: rest => ' ' :: unmarked rest
  | c :: rest => (if c ∈ singleMarks then ' ' else c) :: unmarked rest

/-- The words of the text when its marks count as blanks. -/
def tokens (cs : List Char) : List (List Char) := words (unmarked cs)

variable {c m : Char} {l r w cs blanks : List Char}

theorem unmarked_cons (hc : c ≠ ')') (cs : List Char) :
    unmarked (c :: cs) = (if c ∈ singleMarks then ' ' else c) :: unmarked cs :=
  unmarked.eq_3 c cs fun _ h => absurd h hc

theorem unmarked_append_cons (hc : c ≠ '2') (l r : List Char) :
    unmarked (l ++ c :: r) = unmarked l ++ unmarked (c :: r) := by
  fun_induction unmarked l with
  | case1 => rfl
  | case2 rest ih => rw [List.cons_append, List.cons_append, unmarked, ih, List.cons_append]
  | case3 d rest hd ih =>
      rw [List.cons_append, unmarked.eq_3, ih, List.cons_append]
      -- The character after a closing round bracket is the same with `r`, unless `l` ends there; `c` is no `2`.
      rintro rest' rfl he
      cases rest with
      | nil => exact hc (List.cons.inj he).1
      | cons e rest => exact hd rest rfl (by rw [(List.cons.inj he).1])

theorem unmarked_append_of_isPlain (h : Form.isPlain l) (r : List Char) : unmarked (l ++ r) = l ++ unmarked r := by
  induction l with
  | nil => rfl
  | cons c l ih =>
      obtain ⟨hc, hl⟩ := List.forall_mem_cons.mp (Form.isPlain_iff.mp h)
      have hs : c ∉ singleMarks := by
        intro hm
        simp only [singleMarks, List.mem_cons, List.not_mem_nil, or_false] at hm
        exact hc (by rcases hm with rfl | rfl | rfl | rfl | rfl | rfl <;> decide)
      have hr : c ≠ ')' := by
        rintro rfl
        exact hc (by decide)
      rw [List.cons_append, unmarked_cons hr, if_neg hs, ih (Form.isPlain_iff.mpr hl), List.cons_append]

theorem unmarked_of_isPlain (h : Form.isPlain cs) : unmarked cs = cs := by
  have hu := unmarked_append_of_isPlain h []
  rwa [List.append_nil, unmarked, List.append_nil] at hu

/-! ## Tokens -/

theorem tokens_append_cons (hm : m ∈ singleMarks) (l r : List Char) :
    tokens (l ++ m :: r) = tokens l ++ tokens r := by
  have h2 : m ≠ '2' := by
    rintro rfl
    exact absurd hm (by decide)
  have hc : m ≠ ')' := by
    rintro rfl
    exact absurd hm (by decide)
  rw [tokens, unmarked_append_cons h2, unmarked_cons hc, if_pos hm, words_append_cons (by decide)]
  rfl

theorem tokens_of_isAllBlank (h : isAllBlank blanks) : tokens blanks = [] := by
  rw [tokens, unmarked_of_isPlain (Form.isPlain_of_isAllBlank h)]
  simpa [words, pieces] using words_append_blanks h []

theorem tokens_blanks_append (h : isAllBlank blanks) (cs : List Char) : tokens (blanks ++ cs) = tokens cs := by
  rw [tokens, unmarked_append_of_isPlain (Form.isPlain_of_isAllBlank h), words_blanks_append h]
  rfl

theorem tokens_append_blanks (h : isAllBlank blanks) (cs : List Char) : tokens (cs ++ blanks) = tokens cs := by
  have hu : unmarked (cs ++ blanks) = unmarked cs ++ blanks := by
    cases blanks with
    | nil => rw [List.append_nil, List.append_nil]
    | cons c blanks =>
        have hc : c ≠ '2' := by
          rintro rfl
          cases List.all_eq_true.mp h '2' List.mem_cons_self
        rw [unmarked_append_cons hc, unmarked_of_isPlain (Form.isPlain_of_isAllBlank h)]
  rw [tokens, hu, words_append_blanks h]
  rfl

theorem tokens_double (w : List Char) : tokens ('(' :: (w ++ [')', '2'])) = tokens w := by
  have ho := tokens_append_cons (m := '(') (by decide) [] (w ++ [')', '2'])
  have hc : unmarked (w ++ [')', '2']) = unmarked w ++ [' '] := unmarked_append_cons (by decide) w ['2']
  calc tokens ('(' :: (w ++ [')', '2'])) = tokens (w ++ [')', '2']) := ho
    _ = words (unmarked w ++ [' ']) := by rw [tokens, hc]
    _ = tokens w := words_append_blanks rfl _

end Text

namespace Bracket

open Text (tokens)

variable {ws : List (List Char)}

theorem tokens_group (w : List Char) : tokens (group w) = tokens w := by
  have ho := Text.tokens_append_cons (m := '[') (by decide) [] (w ++ [']'])
  have hc := Text.tokens_append_cons (m := ']') (by decide) w []
  calc tokens (group w) = tokens (w ++ [']']) := ho
    _ = tokens w := hc.trans (List.append_nil _)

theorem tokens_stripOuter (cs : List Char) : tokens (stripOuter cs) = tokens cs := by
  refine of_stripOuter (P := fun w => tokens (stripOuter cs) = tokens w) ?left ?right ?outer rfl
  case left => exact fun _ w hb h => h.trans (Text.tokens_blanks_append hb w).symm
  case right => exact fun w _ hb h => h.trans (Text.tokens_append_blanks hb w).symm
  case outer => exact fun w h => h.trans (tokens_group w).symm

theorem Meet.tokens_flatten (h : Meet ws) : tokens ws.flatten = ws.flatMap tokens := by
  induction h with
  | single w => simp
  | closing w _ ih =>
      have hw := Text.tokens_append_cons (m := ']') (by decide) w []
      rw [List.flatten_cons, List.append_assoc, List.singleton_append, Text.tokens_append_cons (by decide), ih,
        List.flatMap_cons, hw]
      exact congrArg (· ++ _) (List.append_nil _).symm
  | @opening w v ws _ ih =>
      have hv := Text.tokens_append_cons (m := '[') (by decide) [] (v ++ ws.flatten)
      rw [List.flatMap_cons, ← ih, List.flatten_cons, List.flatten_cons, List.cons_append,
        Text.tokens_append_cons (by decide), ← List.nil_append ('[' :: _), hv]
      rfl

theorem tokens_segments (cs : List Char) : (segments cs).flatMap tokens = tokens cs := by
  have h (ws : List (List Char)) : (ws.filter (! Text.isAllBlank ·)).flatMap tokens = ws.flatMap tokens := by
    induction ws with
    | nil => rfl
    | cons w ws ih =>
        rw [List.filter_cons, List.flatMap_cons]
        split
        · rw [List.flatMap_cons, ih]
        · rename_i hw
          rw [ih, Text.tokens_of_isAllBlank (by simpa using hw), List.nil_append]
  rw [segments, h, ← (meet_cut 0 cs).tokens_flatten, flatten_cut]

end Bracket

theorem Operator.mark_mem_singleMarks (op : Operator) : op.mark ∈ Text.singleMarks := by cases op <;> decide

/-! ## Leaves -/

namespace Sequence

theorem ofTokens_append {s t : List (List Char)} {a b : Sequence} (hs : ofTokens s = .ok a) (ht : ofTokens t = .ok b) :
    ofTokens (s ++ t) = .ok (a ++ b) := by
  rw [ofTokens, List.mapM_append]
  rw [ofTokens] at hs ht
  rw [hs, ht]
  rfl

end Sequence

namespace Comm

mutual

/-- The plain moves in a comm from left to right, each leaf once however often it is done. -/
def leaves : Comm → List Sequence
  | moves s => [s]
  | commutator first second => first.leaves ++ second.leaves
  | conjugate setup nested => setup.leaves ++ nested.leaves
  | double body => body.leaves
  | slash setup slice => setup.leaves ++ slice.leaves
  | sideBySide parts => leavesAll parts

def leavesAll : List Comm → List Sequence
  | [] => []
  | part :: parts => part.leaves ++ leavesAll parts

end

theorem leaves_join (op : Operator) (a b : Comm) : (op.join a b).leaves = a.leaves ++ b.leaves := by
  cases op <;> rw [Operator.join, leaves]

variable {cs : List Char} {c : Comm}

theorem ofTokens_of_read (h : read cs = .ok c) : Sequence.ofTokens (Text.tokens cs) = .ok c.leaves.flatten := by
  refine read_induct (P := fun cs c => Sequence.ofTokens (Text.tokens cs) = .ok c.leaves.flatten)
    ?outer ?plain ?double ?join ?sideBySide h
  case outer =>
      intro cs c _ ih
      rwa [Bracket.tokens_stripOuter] at ih
  case plain =>
      intro cs s hp hs
      rw [Text.tokens, Text.unmarked_of_isPlain hp, leaves, List.flatten_singleton]
      exact hs
  case double =>
      intro w c ih
      rw [Text.tokens_double, leaves, ih]
  case join =>
      intro op l r a b iha ihb
      rw [Text.tokens_append_cons op.mark_mem_singleMarks, leaves_join, List.flatten_append]
      exact Sequence.ofTokens_append iha ihb
  case sideBySide =>
      intro cs parts _ _ ih
      rw [← Bracket.tokens_segments, leaves]
      generalize Bracket.segments cs = ws at ih
      induction ih with
      | nil => rfl
      | cons hp _ ih =>
          rw [List.flatMap_cons, leavesAll, List.flatten_append]
          exact Sequence.ofTokens_append hp ih

/-- The leaves of a comm, one after the other, are the moves of its text read without marks. -/
theorem parse_leaves {t : String} (h : parse t = .ok c) :
    Sequence.parse (String.ofList (Text.unmarked t.toList)) = .ok c.leaves.flatten := by
  rw [Sequence.parse, String.toList_ofList]
  exact ofTokens_of_read h

theorem parse_leaves_slash : ∃ c, parse "[(R U)2] D / [M', U2]" = .ok c ∧
    Sequence.parse "  R U   D    M'  U2 " = .ok c.leaves.flatten := by
  obtain ⟨c, hc, -⟩ := Outcome.exists_ok_of_any (x := parse "[(R U)2] D / [M', U2]") (P := fun _ => true)
    (by decide +kernel)
  have hu : String.ofList (Text.unmarked "[(R U)2] D / [M', U2]".toList) = "  R U   D    M'  U2 " := by
    decide +kernel
  refine ⟨c, hc, ?_⟩
  rw [← hu]
  exact parse_leaves hc

end Comm
end Blindfold
