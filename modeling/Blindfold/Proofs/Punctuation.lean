import Blindfold.Proofs.Parts

/-!
# The punctuation of comm texts

Only square brackets are counted when a comm is read. Yet round brackets nest as well in every text that is read,
each closing one has its `2` and ends its part of the text, and no turn is written after a square bracket:
`Comm.punctuated_of_parse`.
-/

namespace Blindfold

/-! ## Round and square brackets together -/

/-- Round and square brackets close in the reverse of the order in which they open. -/
inductive Nested : List Char → Prop
  | nil : Nested []
  | other {c : Char} {w : List Char} : c ∉ ['(', ')', '[', ']'] → Nested w → Nested (c :: w)
  | round {v w : List Char} : Nested v → Nested w → Nested ('(' :: (v ++ ')' :: w))
  | square {v w : List Char} : Nested v → Nested w → Nested ('[' :: (v ++ ']' :: w))

namespace Nested

variable {v w blanks : List Char} {ws : List (List Char)}

theorem append (hv : Nested v) (hw : Nested w) : Nested (v ++ w) := by
  induction hv with
  | nil => exact hw
  | other hc _ ih => exact .other hc ih
  | round hv _ _ ih =>
      rw [List.cons_append, List.append_assoc, List.cons_append]
      exact .round hv ih
  | square hv _ _ ih =>
      rw [List.cons_append, List.append_assoc, List.cons_append]
      exact .square hv ih

theorem of_forall (h : ∀ c ∈ w, c ∉ ['(', ')', '[', ']']) : Nested w := by
  induction w with
  | nil => exact .nil
  | cons c w ih =>
      rw [List.forall_mem_cons] at h
      exact .other h.1 (ih h.2)

theorem of_isPlain (h : Form.isPlain w) : Nested w := by
  refine of_forall fun c hc hb => Form.isPlain_iff.mp h c hc ?_
  simp only [List.mem_cons, List.not_mem_nil, or_false] at hb
  rcases hb with rfl | rfl | rfl | rfl <;> decide

theorem of_isAllBlank (h : Text.isAllBlank blanks) : Nested blanks := of_isPlain (Form.isPlain_of_isAllBlank h)

theorem flatten (h : ∀ w ∈ ws, Nested w) : Nested ws.flatten := by
  induction ws with
  | nil => exact .nil
  | cons w ws ih =>
      rw [List.forall_mem_cons] at h
      exact h.1.append (ih h.2)

end Nested

theorem Comm.nested_of_read {cs : List Char} {c : Comm} (h : read cs = .ok c) : Nested cs := by
  refine read_induct (P := fun cs _ => Nested cs) ?outer ?plain ?double ?join ?sideBySide h
  case outer =>
      intro cs _ _ ih
      refine Bracket.of_stripOuter ?left ?right ?group ih
      case left => exact fun _ _ hb hw => (Nested.of_isAllBlank hb).append hw
      case right => exact fun _ _ hb hw => hw.append (Nested.of_isAllBlank hb)
      case group => exact fun _ hw => .square hw .nil
  case plain => exact fun _ _ hp _ => .of_isPlain hp
  case double => exact fun _ _ ih => .round ih (.other (by decide) .nil)
  case join =>
      intro op l r _ _ ihl ihr
      exact ihl.append (.other (by cases op <;> decide) ihr)
  case sideBySide =>
      intro cs parts _ _ ih
      rw [← Bracket.flatten_cut 0 cs]
      refine Nested.flatten fun w hw => ?_
      rcases Bracket.isAllBlank_or_mem_segments hw with hb | hs
      · exact .of_isAllBlank hb
      · exact Outcome.forall_of_forall₂ ih hs

/-! ## What follows a closing bracket -/

namespace Text

/-- The first character that is not blank. -/
def next? (cs : List Char) : Option Char := cs.find? (! isBlank ·)

theorem next?_append (v w : List Char) : next? (v ++ w) = (next? v).or (next? w) := List.find?_append

theorem next?_eq_none_iff {cs : List Char} : next? cs = none ↔ isAllBlank cs := by
  simp [next?, isAllBlank]

theorem next?_cons {c : Char} (h : isBlank c = false) (cs : List Char) : next? (c :: cs) = some c := by
  simp [next?, h]

end Text

namespace Bracket

/-- The text ends here, or its next character ends a part of it. -/
def EndsPart (after : List Char) : Prop := ∀ d, Text.next? after = some d → d ∈ [']', ')', '[', ',', ':', '/']

/-- The next character is none of those with which a turn begins. -/
def NoTurn (after : List Char) : Prop := ∀ d, Text.next? after = some d → d ≠ '2' ∧ d ≠ '\''

/-- What may follow a character: after a closing bracket not everything. -/
structure MayFollow (c : Char) (after : List Char) : Prop where
  round : c = ')' → ∃ rest, after = '2' :: rest ∧ EndsPart rest
  square : c = ']' → NoTurn after

/-- Every character of the text is followed by what may follow it if the text goes on with `after`. -/
def Punctuated : (w after : List Char) → Prop
  | [], _ => True
  | c :: w, after => MayFollow c (w ++ after) ∧ Punctuated w after

variable {c : Char} {v w after blanks : List Char} {ws : List (List Char)}

theorem EndsPart.noTurn (h : EndsPart after) : NoTurn after := by
  intro d hd
  constructor <;> rintro rfl <;> exact absurd (h _ hd) (by decide)

theorem endsPart_nil : EndsPart [] := nofun

theorem endsPart_cons (hb : Text.isBlank c = false) (hc : c ∈ [']', ')', '[', ',', ':', '/']) (after : List Char) :
    EndsPart (c :: after) := by
  intro d hd
  rw [Text.next?_cons hb] at hd
  cases hd
  exact hc

theorem EndsPart.blanks_append (hb : Text.isAllBlank blanks) (h : EndsPart after) : EndsPart (blanks ++ after) := by
  rw [EndsPart, Text.next?_append, Text.next?_eq_none_iff.mpr hb, Option.none_or]
  exact h

theorem NoTurn.append (hv : NoTurn v) (hw : NoTurn w) : NoTurn (v ++ w) := by
  intro d hd
  rw [Text.next?_append] at hd
  cases hn : Text.next? v with
  | none =>
      rw [hn, Option.none_or] at hd
      exact hw d hd
  | some e =>
      rw [hn, Option.some_or] at hd
      exact hv d (hn.trans hd)

theorem noTurn_of_startsWithTurn (h : Form.startsWithTurn w = false) : NoTurn w := by
  have hn : Text.next? w = (Text.trimStart w).head? := List.find?_not_eq_head?_dropWhile ..
  intro d hd
  rw [hn] at hd
  obtain ⟨rest, hr⟩ := List.head?_eq_some_iff.mp hd
  rw [Form.startsWithTurn, hr] at h
  constructor <;> rintro rfl <;> cases h

theorem NoTurn.flatten (h : ∀ w ∈ ws, NoTurn w) : NoTurn ws.flatten := by
  induction ws with
  | nil => exact nofun
  | cons w ws ih =>
      rw [List.forall_mem_cons] at h
      exact h.1.append (ih h.2)

theorem punctuated_append : Punctuated (v ++ w) after ↔ Punctuated v (w ++ after) ∧ Punctuated w after := by
  induction v with
  | nil => simp only [List.nil_append, Punctuated, true_and]
  | cons c v ih => simp only [List.cons_append, Punctuated, ih, List.append_assoc, and_assoc]

theorem MayFollow.of_ne (hr : c ≠ ')') (hs : c ≠ ']') (after : List Char) : MayFollow c after :=
  ⟨fun h => absurd h hr, fun h => absurd h hs⟩

theorem punctuated_of_isPlain (h : Form.isPlain w) (after : List Char) : Punctuated w after := by
  induction w with
  | nil => trivial
  | cons c w ih =>
      obtain ⟨hc, hw⟩ := List.forall_mem_cons.mp (Form.isPlain_iff.mp h)
      refine ⟨.of_ne ?_ ?_ _, ih (Form.isPlain_iff.mpr hw)⟩ <;> rintro rfl <;> exact hc (by decide)

/-- What follows a text in square brackets matters only to its last bracket. -/
theorem Punctuated.of_closing (h : Punctuated (w ++ [']']) []) (ha : NoTurn after) : Punctuated (w ++ [']']) after := by
  -- The last bracket is not blank, so that nothing before it sees what comes after the text.
  have next (w : List Char) : ∃ d, Text.next? (w ++ [']']) = some d ∧ Text.next? (w ++ [']'] ++ after) = some d := by
    cases hn : Text.next? w with
    | none =>
        have hb : Text.isBlank ']' = false := rfl
        exact ⟨']', by simp [Text.next?_append, hn, Text.next?_cons hb]⟩
    | some d => exact ⟨d, by simp [Text.next?_append, hn]⟩
  induction w with
  | nil => exact ⟨⟨nofun, fun _ => ha⟩, trivial⟩
  | cons c w ih =>
      obtain ⟨hc, hw⟩ := h
      rw [List.append_nil] at hc
      refine ⟨⟨fun hr => ?_, fun hs d hd => ?_⟩, ih hw⟩
      · obtain ⟨rest, he, hends⟩ := hc.round hr
        cases w with
        | nil => cases he
        | cons b w =>
            obtain ⟨rfl, rfl⟩ := List.cons.inj he
            refine ⟨w ++ [']'] ++ after, rfl, fun d hd => ?_⟩
            obtain ⟨e, hnext, hlong⟩ := next w
            cases hlong.symm.trans hd
            exact hends _ hnext
      · obtain ⟨e, hnext, hlong⟩ := next w
        cases hlong.symm.trans hd
        exact hc.square hs _ hnext

/-! ## Parts of punctuated texts -/

/-- The text is punctuated wherever it may stand as a part. -/
def PunctuatedPart (w : List Char) : Prop := ∀ after, EndsPart after → Punctuated w after

namespace PunctuatedPart

theorem of_isPlain (h : Form.isPlain w) : PunctuatedPart w := fun _ _ => punctuated_of_isPlain h _

theorem of_isAllBlank (h : Text.isAllBlank blanks) : PunctuatedPart blanks := of_isPlain (Form.isPlain_of_isAllBlank h)

theorem append (hv : ∀ after, EndsPart after → Punctuated v (w ++ after)) (hw : PunctuatedPart w) :
    PunctuatedPart (v ++ w) := fun after ha => punctuated_append.mpr ⟨hv after ha, hw after ha⟩

theorem of_stripOuter {cs : List Char} (h : PunctuatedPart (stripOuter cs)) : PunctuatedPart cs := by
  refine Bracket.of_stripOuter ?left ?right ?group h
  case left => exact fun blanks w hb hw => append (fun _ _ => punctuated_of_isPlain (Form.isPlain_of_isAllBlank hb) _) hw
  case right => exact fun w blanks hb hw => append (fun after ha => hw _ (ha.blanks_append hb)) (of_isAllBlank hb)
  case group =>
      intro w hw after ha
      refine ⟨.of_ne (by decide) (by decide) _, punctuated_append.mpr ⟨?_, ⟨nofun, fun _ => ha.noTurn⟩, trivial⟩⟩
      exact hw _ (endsPart_cons rfl (by decide) after)

theorem double (hw : PunctuatedPart w) : PunctuatedPart ('(' :: (w ++ [')', '2'])) := by
  intro after ha
  refine ⟨.of_ne (by decide) (by decide) _, punctuated_append.mpr ⟨?_, ⟨?_, nofun⟩, ?_, trivial⟩⟩
  · exact hw _ (endsPart_cons rfl (by decide) _)
  · exact fun _ => ⟨after, rfl, ha⟩
  · exact .of_ne (by decide) (by decide) _

theorem join (op : Operator) (hv : PunctuatedPart v) (hw : PunctuatedPart w) : PunctuatedPart (v ++ op.mark :: w) := by
  refine append (fun after _ => hv _ (endsPart_cons op.isBlank_mark ?_ _)) fun after ha => ⟨.of_ne ?_ ?_ _, hw after ha⟩
  all_goals cases op <;> decide

/-- Of two pieces that meet at a bracket, either the first is in brackets or the second begins with one. -/
theorem flatten (h : Meet ws) (hp : ∀ w ∈ ws, PunctuatedPart w) (ht : ∀ w ∈ ws, NoTurn w) :
    PunctuatedPart ws.flatten := by
  induction h with
  | single w =>
      rw [List.flatten_singleton]
      exact hp w List.mem_cons_self
  | closing w _ ih =>
      obtain ⟨hp, hps⟩ := List.forall_mem_cons.mp hp
      obtain ⟨-, hts⟩ := List.forall_mem_cons.mp ht
      refine append (fun after ha => ?_) (ih hps hts)
      exact (hp [] endsPart_nil).of_closing ((NoTurn.flatten hts).append ha.noTurn)
  | opening w v _ ih =>
      obtain ⟨hp, hps⟩ := List.forall_mem_cons.mp hp
      obtain ⟨-, hts⟩ := List.forall_mem_cons.mp ht
      exact append (fun after _ => hp _ (endsPart_cons rfl (by decide) _)) (ih hps hts)

end PunctuatedPart

end Bracket

/-! ## Accepted texts -/

namespace Comm

variable {cs : List Char} {c : Comm}

theorem punctuatedPart_of_read (h : read cs = .ok c) : Bracket.PunctuatedPart cs := by
  refine read_induct (P := fun cs _ => Bracket.PunctuatedPart cs) ?outer ?plain ?double ?join ?sideBySide h
  case outer => exact fun _ _ _ ih => ih.of_stripOuter
  case plain => exact fun _ _ hp _ => .of_isPlain hp
  case double => exact fun _ _ ih => ih.double
  case join => exact fun op _ _ _ _ ihl ihr => ihl.join op ihr
  case sideBySide =>
      intro cs parts _ ht ih
      have hw : ∀ w ∈ Bracket.cut 0 cs, Bracket.PunctuatedPart w ∧ Bracket.NoTurn w := by
        intro w hw
        rcases Bracket.isAllBlank_or_mem_segments hw with hb | hs
        · refine ⟨.of_isAllBlank hb, fun d hd => ?_⟩
          rw [Text.next?_eq_none_iff.mpr hb] at hd
          cases hd
        · exact ⟨Outcome.forall_of_forall₂ ih hs, Bracket.noTurn_of_startsWithTurn (ht w hs)⟩
      rw [← Bracket.flatten_cut 0 cs]
      exact .flatten (Bracket.meet_cut 0 cs) (fun w h => (hw w h).1) fun w h => (hw w h).2

/-- What is read has all its brackets nested. After a closing round bracket stands a `2`, and after that the part
ends; after a square one stands neither a `2` nor a prime, even after blanks. -/
theorem punctuated_of_parse {t : String} (h : parse t = .ok c) : Nested t.toList ∧
    (∀ before after, t.toList = before ++ ')' :: after →
      ∃ rest, after = '2' :: rest ∧ ∀ d, Text.next? rest = some d → d ∈ [']', ')', '[', ',', ':', '/']) ∧
    ∀ before after, t.toList = before ++ ']' :: after → ∀ d, Text.next? after = some d → d ≠ '2' ∧ d ≠ '\'' := by
  have hp : Bracket.Punctuated t.toList [] := punctuatedPart_of_read h [] Bracket.endsPart_nil
  have follow {before after : List Char} {d : Char} (he : t.toList = before ++ d :: after) :
      Bracket.MayFollow d after := by
    rw [he, Bracket.punctuated_append] at hp
    simpa using hp.2.1
  exact ⟨nested_of_read h, fun before after he => (follow he).round rfl, fun before after he => (follow he).square rfl⟩

theorem punctuated_of_parse_groups : ∃ c, parse "[([R] )2 ] [D: (M)2]" = .ok c ∧
    Nested "[([R] )2 ] [D: (M)2]".toList ∧
    (∀ d, Text.next? " ] [D: (M)2]".toList = some d → d ∈ [']', ')', '[', ',', ':', '/']) ∧
    ∀ d, Text.next? " )2 ] [D: (M)2]".toList = some d → d ≠ '2' ∧ d ≠ '\'' := by
  obtain ⟨c, hc, -⟩ := Outcome.exists_ok_of_any (x := parse "[([R] )2 ] [D: (M)2]") (P := fun _ => true)
    (by decide +kernel)
  obtain ⟨nested, round, square⟩ := punctuated_of_parse hc
  obtain ⟨rest, he, hr⟩ := round "[([R] ".toList "2 ] [D: (M)2]".toList rfl
  cases he
  exact ⟨c, hc, nested, hr, square "[([R".toList _ rfl⟩

end Comm
end Blindfold
