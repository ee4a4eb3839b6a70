import Blindfold.Proofs.Outcome
import Blindfold.Proofs.Words
import Blindfold.Move.Sequence

/-!
# Comments

Moves with comments are read line by line, and of each line what stands before its comment
(`Sequence.parseCommented_joined`). A carriage return ends no line and no comment, whether or not a line feed comes
after it.
-/

namespace Blindfold

/-! ## Lines -/

namespace Text

variable {xs : List Char}

theorem pieces_newline (h : '\n' ∉ xs) : pieces (· == '\n') xs = [xs] :=
  pieces_eq_singleton fun _ hc => by simpa using ne_of_mem_of_not_mem hc h

theorem lines_of_not_mem (h : '\n' ∉ xs) (hne : xs ≠ []) : lines xs = [xs] := by
  simp [lines, pieces_newline h, hne]

theorem lines_append_cons (h : '\n' ∉ xs) (ys : List Char) :
    lines (xs ++ '\n' :: ys) = withoutReturn xs :: lines ys := by
  have hne := pieces_ne_nil (· == '\n') ys
  rw [lines, pieces_append_cons (by rfl), pieces_newline h, List.singleton_append, List.dropLast_cons_of_ne_nil hne,
    List.getLast?_cons_of_ne_nil hne, List.map_cons, List.cons_append]
  rfl

theorem withoutReturn_append (xs : List Char) : withoutReturn (xs ++ ['\r']) = xs := by
  simp [withoutReturn]

/-- What holds of texts in one line, and of a text when it holds without its first line, holds of every text. -/
@[elab_as_elim]
theorem line_induct {P : List Char → Prop} (last : ∀ xs, '\n' ∉ xs → P xs)
    (line : ∀ xs ys, '\n' ∉ xs → P ys → P (xs ++ '\n' :: ys)) (cs : List Char) : P cs := by
  suffices h : ∀ xs, '\n' ∉ xs → P (xs ++ cs) from h [] (List.not_mem_nil)
  induction cs with
  | nil => exact fun xs hx => last _ (by simpa using hx)
  | cons c cs ih =>
      intro xs hx
      by_cases hc : c = '\n'
      · subst hc
        exact line xs cs hx (ih [] (List.not_mem_nil))
      · simpa using ih (xs ++ [c]) (by simp [hx, Ne.symm hc])

end Text

/-! ## Code and comments -/

/-- A line that consists of code, with or without a comment behind it. -/
structure CommentedLine where
  code : List Char
  comment : Option (List Char)
  hash_not_mem_code : '#' ∉ code
  newline_not_mem_code : '\n' ∉ code
  newline_not_mem_comment : ∀ w ∈ comment, '\n' ∉ w

namespace CommentedLine

def text (l : CommentedLine) : List Char := l.code ++ l.comment.elim [] ('#' :: ·)

theorem newline_not_mem_text (l : CommentedLine) : '\n' ∉ l.text := by
  obtain ⟨code, comment, -, hc, hw⟩ := l
  cases comment with
  | none => simpa [text] using hc
  | some w => simpa [text, hc] using hw

/-- The text of the lines, each ended by a line feed with or without a carriage return before it. The last line may go
without an end. -/
inductive Joined : List CommentedLine → List Char → Prop
  | nil : Joined [] []
  | single (l : CommentedLine) : Joined [l] l.text
  | feed (l : CommentedLine) {ls : List CommentedLine} {w : List Char} :
      Joined ls w → Joined (l :: ls) (l.text ++ '\n' :: w)
  | returnFeed (l : CommentedLine) {ls : List CommentedLine} {w : List Char} :
      Joined ls w → Joined (l :: ls) (l.text ++ '\r' :: '\n' :: w)

theorem exists_text {xs : List Char} (h : '\n' ∉ xs) : ∃ l : CommentedLine, l.text = xs := by
  by_cases hm : '#' ∈ xs
  · obtain ⟨code, w, rfl, hc⟩ := List.eq_append_cons_of_mem hm
    refine ⟨⟨code, some w, hc, fun hn => h (by simp [hn]), ?_⟩, rfl⟩
    rintro _ ⟨⟩ hn
    exact h (by simp [hn])
  · exact ⟨⟨xs, none, hm, h, nofun⟩, List.append_nil xs⟩

/-- Every text is made of such lines. -/
theorem exists_joined (cs : List Char) : ∃ ls, Joined ls cs := by
  induction cs using Text.line_induct with
  | last xs h =>
      obtain ⟨l, rfl⟩ := exists_text h
      exact ⟨[l], .single l⟩
  | line xs ys h ih =>
      obtain ⟨l, rfl⟩ := exists_text h
      obtain ⟨ls, hls⟩ := ih
      exact ⟨l :: ls, .feed l hls⟩

end CommentedLine

namespace Sequence

open Text (words)

variable {cs xs : List Char} {ls : List CommentedLine} {t : String}

theorem codePart_of_not_mem (h : '#' ∉ xs) : codePart xs = xs :=
  List.takeWhile_eq_self_iff.mpr fun c hc => by simpa using ne_of_mem_of_not_mem hc h

theorem codePart_append_cons (h : '#' ∉ xs) (ys : List Char) : codePart (xs ++ '#' :: ys) = xs := by
  rw [codePart, List.takeWhile_append_of_pos fun c hc => by simpa using ne_of_mem_of_not_mem hc h]
  simp

theorem codePart_text (l : CommentedLine) : codePart l.text = l.code := by
  obtain ⟨code, comment, h, -, -⟩ := l
  cases comment with
  | none => simpa [CommentedLine.text] using codePart_of_not_mem h
  | some w => exact codePart_append_cons h w

/-- A carriage return at the end of a line is a blank or part of the comment. -/
theorem words_codePart_withoutReturn (line : List Char) :
    words (codePart (Text.withoutReturn line)) = words (codePart line) := by
  by_cases hr : line.getLast? = some '\r'
  · obtain ⟨xs, rfl⟩ := List.getLast?_eq_some_iff.mp hr
    rw [Text.withoutReturn_append]
    by_cases hm : '#' ∈ xs
    · obtain ⟨code, comment, rfl, hc⟩ := List.eq_append_cons_of_mem hm
      rw [List.append_assoc, List.cons_append, codePart_append_cons hc, codePart_append_cons hc]
    · rw [codePart_of_not_mem hm, codePart_of_not_mem (by simp [hm]), Text.words_append_blanks rfl]
  · rw [Text.withoutReturn, if_neg hr]

/-- The words in the code of a text. -/
def commentedTokens (cs : List Char) : List (List Char) := (Text.lines cs).flatMap fun line => words (codePart line)

theorem commentedTokens_of_not_mem (h : '\n' ∉ xs) : commentedTokens xs = words (codePart xs) := by
  by_cases hne : xs = []
  · subst hne
    rfl
  · simp [commentedTokens, Text.lines_of_not_mem h hne]

theorem commentedTokens_append_cons (h : '\n' ∉ xs) (ys : List Char) :
    commentedTokens (xs ++ '\n' :: ys) = words (codePart xs) ++ commentedTokens ys := by
  rw [commentedTokens, Text.lines_append_cons h, List.flatMap_cons, words_codePart_withoutReturn]
  rfl

theorem commentedTokens_joined (h : CommentedLine.Joined ls cs) :
    commentedTokens cs = (ls.map fun l => words l.code).flatten := by
  induction h with
  | nil => rfl
  | single l => simp [commentedTokens_of_not_mem l.newline_not_mem_text, codePart_text]
  | feed l _ ih => simp [commentedTokens_append_cons l.newline_not_mem_text, codePart_text, ih]
  | @returnFeed l ls w _ ih =>
      have hn : '\n' ∉ l.text ++ ['\r'] := by simp [l.newline_not_mem_text]
      have hw := commentedTokens_append_cons hn w
      rw [← words_codePart_withoutReturn, Text.withoutReturn_append, codePart_text, ih] at hw
      simpa using hw

theorem commentedTokens_of_hash_not_mem (h : '#' ∉ cs) : commentedTokens cs = words cs := by
  induction cs using Text.line_induct with
  | last xs hn => rw [commentedTokens_of_not_mem hn, codePart_of_not_mem h]
  | line xs ys hn ih =>
      have hx : '#' ∉ xs := fun hm => h (List.mem_append_left _ hm)
      have hy : '#' ∉ ys := fun hm => h (List.mem_append_right _ (List.mem_cons_of_mem _ hm))
      rw [commentedTokens_append_cons hn, codePart_of_not_mem hx, ih hy, Text.words_append_cons rfl]

theorem readCommented_joined (h : CommentedLine.Joined ls cs) :
    readCommented cs = (ls.mapM fun l => read l.code).map List.flatten := by
  have hm := Outcome.mapM_flatten Move.read (ls.map fun l => words l.code)
  rw [List.mapM_map] at hm
  calc readCommented cs = ofTokens (commentedTokens cs) := rfl
    _ = ofTokens (ls.map fun l => words l.code).flatten := by rw [commentedTokens_joined h]
    _ = (ls.mapM fun l => read l.code).map List.flatten := hm.symm

theorem read_eq_error_iff {e : IllegalMove} : read cs = .error e ↔ ∃ before w after, words cs = before ++ w :: after ∧
    (∀ v ∈ before, ∃ m, Move.read v = .ok m) ∧ Move.read w = .error e :=
  Outcome.mapM_eq_error_iff

/-- Every text is made of lines of code with or without comments, and it is read as the code of its lines, one after
the other. Reading stops at the first word that is no move, of the first line whose code cannot be read. Without a
number sign the lines make no difference. -/
theorem parseCommented_joined :
    (∀ t : String, ∃ ls, CommentedLine.Joined ls t.toList) ∧
    (∀ (ls : List CommentedLine) (t : String), CommentedLine.Joined ls t.toList →
      parseCommented t = (ls.mapM fun l => read l.code).map List.flatten ∧
      ∀ e, parseCommented t = .error e ↔ ∃ before l after good w rest, ls = before ++ l :: after ∧
        (∀ k ∈ before, ∃ s, read k.code = .ok s) ∧ words l.code = good ++ w :: rest ∧
        (∀ v ∈ good, ∃ m, Move.read v = .ok m) ∧ Move.read w = .error e) ∧
    ∀ t : String, '#' ∉ t.toList → parseCommented t = parse t := by
  refine ⟨fun t => CommentedLine.exists_joined t.toList, fun ls t h => ?joined, fun t h => ?plain⟩
  case joined =>
      have hread : parseCommented t = (ls.mapM fun l => read l.code).map List.flatten := readCommented_joined h
      refine ⟨hread, fun e => ?_⟩
      have hmap : (ls.mapM fun l => read l.code).map List.flatten = .error e ↔
          (ls.mapM fun l => read l.code) = .error e := by
        cases ls.mapM fun l => read l.code <;> simp [Except.map]
      rw [hread, hmap, Outcome.mapM_eq_error_iff]
      constructor
      · rintro ⟨before, l, after, hls, hbefore, hl⟩
        obtain ⟨good, w, rest, hw⟩ := read_eq_error_iff.mp hl
        exact ⟨before, l, after, good, w, rest, hls, hbefore, hw⟩
      · rintro ⟨before, l, after, good, w, rest, hls, hbefore, hw⟩
        exact ⟨before, l, after, hls, hbefore, read_eq_error_iff.mpr ⟨good, w, rest, hw⟩⟩
  case plain => exact congrArg ofTokens (commentedTokens_of_hash_not_mem h)

theorem parseCommented_joined_returns :
    parseCommented "R U#F # \r U\u2028\r\n\rD2'#\nM" =
      .ok [⟨.face .R, .clockwise⟩, ⟨.face .U, .clockwise⟩, ⟨.face .D, .half⟩, ⟨.slice .M, .clockwise⟩] ∧
    parseCommented "R# R\rQ\nU Q\n Q" = .error ⟨"Q"⟩ ∧ parseCommented "R\r\nU" = parse "R\r\nU" := by
  let line (code : List Char) (comment : Option (List Char)) (h : '#' ∉ code) (hc : '\n' ∉ code)
      (hw : ∀ w ∈ comment, '\n' ∉ w) : CommentedLine := ⟨code, comment, h, hc, hw⟩
  have hj : CommentedLine.Joined [_, _, _] "R U#F # \r U\u2028\r\n\rD2'#\nM".toList :=
    .returnFeed (line "R U".toList (some "F # \r U\u2028".toList) (by decide) (by decide) (by decide))
      (.feed (line "\rD2'".toList (some []) (by decide) (by decide) (by decide))
        (.single (line ['M'] none (by decide) (by decide) nofun)))
  have he : CommentedLine.Joined [_, _, _] "R# R\rQ\nU Q\n Q".toList :=
    .feed (line ['R'] (some " R\rQ".toList) (by decide) (by decide) (by decide))
      (.feed (line "U Q".toList none (by decide) (by decide) nofun)
        (.single (line " Q".toList none (by decide) (by decide) nofun)))
  obtain ⟨-, joined, plain⟩ := parseCommented_joined
  refine ⟨(joined _ _ hj).1.trans ?_, ((joined _ _ he).1.trans ?_), plain _ (by decide)⟩
  · decide +kernel
  · decide +kernel

end Sequence
end Blindfold
