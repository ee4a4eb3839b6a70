import Mathlib.Data.List.Perm.Subperm
import Blindfold.Proofs.Comments
import Blindfold.Proofs.Forms

/-!
# The text of moves

Which texts are read as moves, and as which (`Move.read_eq_ok_iff`, `Sequence.parse_eq_ok_iff`). The canonical text of a
sequence is read back as moves, as moves with comments and as a comm (`Sequence.parse_spelled`).
-/

namespace Blindfold

/-! ## Layers and turns -/

namespace Layer

def allSpellings : List (List Char) := all.flatMap spellings

variable {l : Layer} {w : List Char}

theorem mem_all (l : Layer) : l ∈ all := by
  rcases l with f | f | s | a
  · cases f <;> decide
  · cases f <;> decide
  · cases s <;> decide
  · cases a <;> decide

theorem read?_eq_some_iff : read? w = some l ↔ w ∈ l.spellings := by
  constructor
  · intro h
    simpa using List.find?_some h
  · have distinct : ∀ l ∈ all, ∀ w ∈ l.spellings, read? w = some l := by decide
    exact distinct l l.mem_all w

theorem getLast?_of_mem_spellings (h : w ∈ l.spellings) {c : Char} (hc : c ∈ w.getLast?) : c ≠ '2' ∧ c ≠ '\'' := by
  have plain : ∀ l ∈ all, ∀ w ∈ l.spellings, w.getLast? ≠ some '2' ∧ w.getLast? ≠ some '\'' := by decide
  simpa [Option.mem_def.mp hc] using plain l l.mem_all w h

theorem mem_allSpellings : w ∈ allSpellings ↔ ∃ l : Layer, w ∈ l.spellings := by
  simp [allSpellings, mem_all]

end Layer

namespace Turn

/-- What may be written after the layer. -/
def suffixes : Turn → List (List Char)
  | clockwise => [[]]
  | counterclockwise => [['\'']]
  | half => [['2'], ['2', '\'']]

theorem exists_suffixes_iff {P : List Char → Prop} :
    (∃ turn : Turn, ∃ s ∈ turn.suffixes, P s) ↔ ∃ s ∈ [[], ['\''], ['2'], ['2', '\'']], P s := by
  constructor
  · rintro ⟨turn, s, hs, h⟩
    cases turn <;> exact ⟨s, by simp_all [suffixes], h⟩
  · simp only [List.mem_cons, List.not_mem_nil, or_false]
    rintro ⟨s, rfl | rfl | rfl | rfl, h⟩
    · exact ⟨clockwise, _, by simp [suffixes], h⟩
    · exact ⟨counterclockwise, _, by simp [suffixes], h⟩
    · exact ⟨half, _, by simp [suffixes], h⟩
    · exact ⟨half, _, by simp [suffixes], h⟩

end Turn

/-! ## Moves -/

namespace Move

variable {m : Move} {l s w : List Char} {turn : Turn}

/-- The text is a spelling of the layer with a suffix for the turn. -/
def IsWritten (m : Move) (w : List Char) : Prop := ∃ l ∈ m.layer.spellings, ∃ s ∈ m.turn.suffixes, w = l ++ s

/-- The text is a spelling of a layer with a suffix. -/
def IsSpelled (w : List Char) : Prop := ∃ l ∈ Layer.allSpellings, ∃ s ∈ [[], ['\''], ['2'], ['2', '\'']], w = l ++ s

theorem exists_isWritten_iff : (∃ m : Move, m.IsWritten w) ↔ IsSpelled w := by
  simp only [IsSpelled, ← Turn.exists_suffixes_iff, Layer.mem_allSpellings]
  constructor
  · rintro ⟨m, l, hl, s, hs, h⟩
    exact ⟨l, ⟨m.layer, hl⟩, m.turn, s, hs, h⟩
  · rintro ⟨l, ⟨layer, hl⟩, turn, s, hs, h⟩
    exact ⟨⟨layer, turn⟩, l, hl, s, hs, h⟩

theorem exists_suffix_of_splitTurn (h : splitTurn w = (l, turn)) : ∃ s ∈ turn.suffixes, w = l ++ s := by
  unfold splitTurn at h
  split at h <;> rename_i hw <;> cases h
  · exact ⟨['2', '\''], by simp [Turn.suffixes], by simpa using congrArg List.reverse hw⟩
  · exact ⟨['2'], by simp [Turn.suffixes], by simpa using congrArg List.reverse hw⟩
  · exact ⟨['\''], by simp [Turn.suffixes], by simpa using congrArg List.reverse hw⟩
  · exact ⟨[], by simp [Turn.suffixes], (List.append_nil _).symm⟩

/-- From a text that ends in no suffix nothing more is taken. -/
theorem splitTurn_append (h : ∀ c ∈ l.getLast?, c ≠ '2' ∧ c ≠ '\'') (hs : s ∈ turn.suffixes) :
    splitTurn (l ++ s) = (l, turn) := by
  obtain ⟨r, rfl⟩ : ∃ r, l = r.reverse := ⟨l.reverse, l.reverse_reverse.symm⟩
  have hr : ∀ c rest, r = c :: rest → c ≠ '2' ∧ c ≠ '\'' := fun c rest hc => h c (by simp [hc])
  cases turn with
  | clockwise =>
      obtain rfl := List.mem_singleton.mp hs
      unfold splitTurn
      split <;> simp_all
  | counterclockwise =>
      obtain rfl := List.mem_singleton.mp hs
      unfold splitTurn
      split <;> simp_all
  | half =>
      rcases List.mem_pair.mp hs with rfl | rfl
      · simp [splitTurn]
      · simp [splitTurn]

theorem read?_eq_some_iff : read? w = some m ↔ m.IsWritten w := by
  constructor
  · intro h
    obtain ⟨layer, hl, rfl⟩ := Option.map_eq_some_iff.mp h
    obtain ⟨s, hs, hw⟩ := exists_suffix_of_splitTurn (w := w) rfl
    exact ⟨_, Layer.read?_eq_some_iff.mp hl, s, hs, hw⟩
  · rintro ⟨l, hl, s, hs, rfl⟩
    have hsplit := splitTurn_append (fun c => Layer.getLast?_of_mem_spellings hl) hs
    rw [read?, hsplit]
    simp [Layer.read?_eq_some_iff.mpr hl]

theorem read_eq_ok_iff : read w = .ok m ↔ m.IsWritten w := by
  rw [← read?_eq_some_iff, read]
  cases read? w <;> simp

theorem exists_read_iff : (∃ m, read w = .ok m) ↔ IsSpelled w := by
  simp only [read_eq_ok_iff, exists_isWritten_iff]

theorem read_eq_error_iff {e : IllegalMove} : read w = .error e ↔ ¬ IsSpelled w ∧ e = ⟨String.ofList w⟩ := by
  simp only [← exists_read_iff, read]
  cases read? w <;> simp [eq_comm]

end Move

/-! ## Sequences -/

namespace Sequence

variable {s : Sequence} {t : String}

theorem parse_eq_ok_iff :
    parse t = .ok s ↔ List.Forall₂ (fun w (m : Move) => m.IsWritten w) (Text.words t.toList) s := by
  rw [parse, read, ofTokens, Outcome.mapM_eq_ok_iff]
  simp only [Move.read_eq_ok_iff]

theorem parse_eq_error_iff {e : IllegalMove} : parse t = .error e ↔ ∃ before w after,
    Text.words t.toList = before ++ w :: after ∧ (∀ v ∈ before, Move.IsSpelled v) ∧ ¬ Move.IsSpelled w ∧
      e = ⟨String.ofList w⟩ := by
  rw [parse, read_eq_error_iff]
  simp only [Move.exists_read_iff, Move.read_eq_error_iff]

theorem exists_parse_iff : (∃ s, parse t = .ok s) ↔ ∀ w ∈ Text.words t.toList, Move.IsSpelled w := by
  constructor
  · rintro ⟨s, h⟩ w hw
    exact Move.exists_read_iff.mp (Outcome.exists_ok_of_mapM h hw)
  · intro h
    cases hp : parse t with
    | ok s => exact ⟨s, rfl⟩
    | error e =>
        obtain ⟨before, w, after, hw, -, hn, -⟩ := parse_eq_error_iff.mp hp
        exact absurd (h w (by simp [hw])) hn

theorem mem_text {c : Char} (h : c ∈ s.text) : c = ' ' ∨ ∃ m ∈ s, c ∈ m.text := by
  induction s with
  | nil => cases h
  | cons m s ih =>
      cases s with
      | nil => exact .inr ⟨m, by simp, by simpa [text] using h⟩
      | cons m' s =>
          rw [text_cons m _ (List.cons_ne_nil _ _), List.mem_append, List.mem_cons] at h
          rcases h with h | rfl | h
          · exact .inr ⟨m, by simp, h⟩
          · exact .inl rfl
          · rcases ih h with h | ⟨m, hm, hc⟩
            · exact .inl h
            · exact .inr ⟨m, List.mem_cons_of_mem _ hm, hc⟩

theorem hash_not_mem_text (s : Sequence) : '#' ∉ s.text := by
  intro h
  rcases mem_text h with h | ⟨⟨layer, turn⟩, -, h⟩
  · cases h
  · have hl : ∀ l ∈ Layer.all, '#' ∉ l.symbol := by decide
    have ht : '#' ∉ turn.suffix := by cases turn <;> decide
    rcases List.mem_append.mp h with h | h
    · exact hl layer layer.mem_all h
    · exact ht h

theorem parse_toString (s : Sequence) : parse s.toString = .ok s := by
  rw [parse, toString, String.toList_ofList, read_text]

theorem parseCommented_toString (s : Sequence) : parseCommented s.toString = .ok s := by
  rw [parseCommented, toString, String.toList_ofList]
  exact (congrArg ofTokens (commentedTokens_of_hash_not_mem s.hash_not_mem_text)).trans s.read_text

theorem parse_comm_toString (s : Sequence) : Comm.parse s.toString = .ok (.moves s) := by
  rw [Comm.parse, toString, String.toList_ofList, Comm.read_of_isPlain s.isPlain_text, Comm.readMoves, s.read_text]

theorem toString_injective : Function.Injective toString := by
  intro s s' h
  have hs := s.parse_toString
  rw [h, parse_toString] at hs
  exact (Except.ok.inj hs).symm

theorem map_toString_eq_iff {x y : Except IllegalMove Sequence} : x.map toString = y.map toString ↔ x = y := by
  cases x <;> cases y <;> simp [Except.map, toString_injective.eq_iff]

/-- A text is read as moves when each of its words is one of the 27 spellings of layers with nothing, a prime, a two or
both behind it, and as the moves that its words are written for. Else its first word of another form is the error. From
the canonical text of a sequence each reader gives the sequence back, and so what is read is known by its canonical
text. -/
theorem parse_spelled :
    (Layer.allSpellings.length = 27 ∧ Layer.allSpellings.Nodup) ∧
    (∀ t : String, Text.Divided t.toList (Text.words t.toList) ∧
      ((∃ s, parse t = .ok s) ↔ ∀ w ∈ Text.words t.toList, Move.IsSpelled w) ∧
      (∀ s, parse t = .ok s ↔ List.Forall₂ (fun w (m : Move) => m.IsWritten w) (Text.words t.toList) s) ∧
      ∀ e, parse t = .error e ↔ ∃ before w after, Text.words t.toList = before ++ w :: after ∧
        (∀ v ∈ before, Move.IsSpelled v) ∧ ¬ Move.IsSpelled w ∧ e = ⟨String.ofList w⟩) ∧
    (∀ s : Sequence, parse s.toString = .ok s ∧ parseCommented s.toString = .ok s ∧
      Comm.parse s.toString = .ok (.moves s)) ∧
    ∀ t t' : String, (parse t).map toString = (parse t').map toString ↔ parse t = parse t' := by
  refine ⟨⟨rfl, by decide⟩, fun t => ?text, fun s => ?canonical, fun t t' => map_toString_eq_iff⟩
  case text =>
      exact ⟨Text.divided_words t.toList, exists_parse_iff, fun s => parse_eq_ok_iff, fun e => parse_eq_error_iff⟩
  case canonical => exact ⟨s.parse_toString, s.parseCommented_toString, s.parse_comm_toString⟩

/-- Each of the 27 spellings is read, and so no 25 spellings are enough. -/
theorem parse_all_spellings :
    (∃ s, parse "U D F B R L Uw Dw Fw Bw Rw Lw u d f b r l M S E x y z X Y Z" = .ok s ∧ s.length = 27) ∧
    ¬ ∃ spellings : List (List Char), spellings.length = 25 ∧
      ∀ w ∈ Text.words "U D F B R L Uw Dw Fw Bw Rw Lw u d f b r l M S E x y z X Y Z".toList,
        ∃ l ∈ spellings, ∃ s ∈ [[], ['\''], ['2'], ['2', '\'']], w = l ++ s := by
  constructor
  · obtain ⟨s, hs, hl⟩ := Outcome.exists_ok_of_any
      (x := parse "U D F B R L Uw Dw Fw Bw Rw Lw u d f b r l M S E x y z X Y Z") (P := fun s => s.length == 27)
      (by decide +kernel)
    exact ⟨s, hs, by simpa using hl⟩
  · have hn : (Text.words "U D F B R L Uw Dw Fw Bw Rw Lw u d f b r l M S E x y z X Y Z".toList).Nodup ∧
        (Text.words "U D F B R L Uw Dw Fw Bw Rw Lw u d f b r l M S E x y z X Y Z".toList).length = 27 ∧
        ∀ w ∈ Text.words "U D F B R L Uw Dw Fw Bw Rw Lw u d f b r l M S E x y z X Y Z".toList,
          w.getLast? ≠ some '2' ∧ w.getLast? ≠ some '\'' := by
      decide +kernel
    generalize Text.words "U D F B R L Uw Dw Fw Bw Rw Lw u d f b r l M S E x y z X Y Z".toList = ws at hn
    obtain ⟨hn, hl, hlast⟩ := hn
    rintro ⟨spellings, h25, h⟩
    have hsub : ws ⊆ spellings := by
      intro w hw
      obtain ⟨l, hm, s, hs, rfl⟩ := h w hw
      have hnot := hlast _ hw
      simp only [List.mem_cons, List.not_mem_nil, or_false] at hs
      rcases hs with rfl | rfl | rfl | rfl
      · simpa using hm
      all_goals simp at hnot
    have hle := (hn.subperm hsub).length_le
    omega

end Sequence
end Blindfold
