import Mathlib.Data.List.Basic
import Blindfold.Comm.Reading
import Blindfold.Proofs.Nesting
import Blindfold.Proofs.Outcome
import Blindfold.Proofs.Spelling

/-!
# Reading by form

What `Comm.read` makes of a balanced text depends on what is left of it without its outer brackets
(`Comm.read_eq`). Two operands with an operator between them are read apart, unless a round bracket opens the
first and closes the second: `Comm.read_join`.
-/

namespace Blindfold

/-- The three ways in which a mark joins two comms. -/
inductive Operator where
  | conjugate | commutator | slash
deriving DecidableEq, Repr

namespace Operator

def mark : Operator → Char
  | conjugate => ':'
  | commutator => ','
  | slash => '/'

def join : Operator → Comm → Comm → Comm
  | conjugate => .conjugate
  | commutator => .commutator
  | slash => .slash

def form : Operator → List Char → List Char → Form
  | conjugate => .conjugate
  | commutator => .commutator
  | slash => .slash

variable (op : Operator)

theorem mark_injective : Function.Injective mark := by
  intro op op' h
  cases op <;> cases op' <;> first | rfl | cases h

theorem mark_mem_marks : op.mark ∈ Form.marks := by cases op <;> decide

theorem isBlank_mark : Text.isBlank op.mark = false := by cases op <;> rfl

theorem mark_ne_open : op.mark ≠ '[' := by cases op <;> decide

theorem mark_ne_close : op.mark ≠ ']' := by cases op <;> decide

end Operator

/-! ## Forms -/

namespace Form

variable {cs body l r : List Char} {c : Char}

theorem isPlain_eq_false (hc : c ∈ marks) (h : c ∈ cs) : isPlain cs = false := by
  rw [isPlain, List.all_eq_false]
  exact ⟨c, h, by simpa using hc⟩

theorem doubleBody?_eq_some_iff : doubleBody? cs = some body ↔ cs = '(' :: (body ++ [')', '2']) := by
  constructor
  · intro h
    unfold doubleBody? at h
    split at h
    · rename_i rest
      split at h
      · rename_i body' hr
        cases h
        rw [← List.reverse_reverse rest, hr]
        simp
      · cases h
    · cases h
  · rintro rfl
    simp [doubleBody?]

/-- How a text is made up of the parts of a form. -/
inductive Fits : List Char → Form → Prop
  | plain {w : List Char} : isPlain w → Fits w plain
  | double (body : List Char) : Fits ('(' :: (body ++ [')', '2'])) (double body)
  | join (op : Operator) (l r : List Char) :
      Bracket.splitAt? op.mark 0 (l ++ op.mark :: r) = some (l, r) → Fits (l ++ op.mark :: r) (op.form l r)
  | sideBySide {w : List Char} : 2 ≤ (Bracket.segments w).length →
      (∀ part ∈ Bracket.segments w, startsWithTurn part = false) → Fits w (sideBySide (Bracket.segments w))
  | malformed (w : List Char) : Fits w malformed

theorem fits_ofText (cs : List Char) : Fits cs (ofText cs) := by
  have join (op : Operator) {l r : List Char} (h : Bracket.splitAt? op.mark 0 cs = some (l, r)) :
      Fits cs (op.form l r) := by
    obtain rfl := Bracket.splitAt?_eq_append h
    exact .join op l r h
  unfold ofText
  split
  · rename_i h
    exact .plain h
  · split
    · rename_i body h
      rw [doubleBody?_eq_some_iff.mp h]
      exact .double body
    · split
      · rename_i h
        exact join .conjugate h
      · split
        · rename_i h
          exact join .commutator h
        · split
          · rename_i h
            exact join .slash h
          · dsimp only
            split
            · rename_i h
              exact .sideBySide h.1 (by simpa using h.2)
            · exact .malformed cs

theorem ofText_double (h : doubleBody? cs = some body) : ofText cs = .double body := by
  have hp : isPlain cs = false := by
    rw [doubleBody?_eq_some_iff.mp h]
    rfl
  rw [ofText, hp, h]
  rfl

/-- A round bracket opens the first text, and one closes the second before a final `2`. -/
def Straddles (l r : List Char) : Prop := l.head? = some '(' ∧ [')', '2'] <:+ r

instance (l r : List Char) : Decidable (Straddles l r) := inferInstanceAs (Decidable (_ ∧ _))

theorem straddles_of_doubleBody? {op : Operator} (h : doubleBody? (l ++ op.mark :: r) = some body) :
    Straddles l r := by
  rw [doubleBody?_eq_some_iff] at h
  cases l with
  | nil => cases op <;> cases h
  | cons c x =>
      obtain ⟨rfl, he⟩ := List.cons.inj h
      refine ⟨rfl, ?_⟩
      rcases List.append_eq_append_iff.mp he with ⟨z, rfl, hz⟩ | ⟨z, rfl, hz⟩
      · cases z with
        | nil => cases op <;> cases hz
        | cons d y => exact ⟨y, (List.cons.inj hz).2.symm⟩
      · -- The operator would be one of the two characters at the end.
        match z, hz with
        | [], hz => cases op <;> cases hz
        | [_], hz => cases op <;> cases hz
        | _ :: _ :: z, hz => simp at hz

theorem doubleBody?_eq_none {op : Operator} (h : ¬ Straddles l r) : doubleBody? (l ++ op.mark :: r) = none :=
  Option.eq_none_iff_forall_ne_some.mpr fun _ hb => h (straddles_of_doubleBody? hb)

end Form

/-! ## Operands -/

/-- A balanced text without an operator outside of brackets. -/
structure Operand (w : List Char) : Prop where
  closes : Bracket.Closes 0 w
  splitAt? (op : Operator) : Bracket.splitAt? op.mark 0 w = none

/-- No operator has as many closing as opening brackets before it. -/
def HidesOperators (w : List Char) : Prop :=
  ∀ (op : Operator) (before after : List Char), w = before ++ op.mark :: after →
    before.count '[' ≠ before.count ']'

theorem operand_iff {w : List Char} (h : Bracket.Closes 0 w) : Operand w ↔ HidesOperators w := by
  have hs (op : Operator) : Bracket.splitAt? op.mark 0 w = none ↔
      ∀ before after, w = before ++ op.mark :: after → before.count '[' ≠ before.count ']' := by
    rw [h.splitAt?_eq_none_iff]
    simp only [Nat.zero_add]
  exact ⟨fun ho op => (hs op).mp (ho.splitAt? op), fun ho => ⟨h, fun op => (hs op).mpr (ho op)⟩⟩

namespace Operand

variable {w l r : List Char}

theorem group (h : Bracket.Closes 0 w) : Operand (Bracket.group w) :=
  ⟨h.group, fun op => Bracket.splitAt?_group h op.mark_ne_open op.mark_ne_close⟩

theorem trimStart (h : Operand w) : Operand (Text.trimStart w) :=
  ⟨h.closes.trimStart, fun op => Bracket.splitAt?_trimStart (h.splitAt? op)⟩

theorem trimEnd (h : Operand w) : Operand (Text.trimEnd w) :=
  ⟨h.closes.trimEnd, fun op => Bracket.splitAt?_trimEnd (h.splitAt? op)⟩

theorem closes_join (hl : Operand l) (hr : Operand r) (op : Operator) :
    Bracket.Closes 0 (l ++ op.mark :: r) :=
  hl.closes.append (.other op.mark_ne_open op.mark_ne_close hr.closes)

theorem splitAt?_join (hl : Operand l) (hr : Operand r) (op op' : Operator) :
    Bracket.splitAt? op'.mark 0 (l ++ op.mark :: r) = if op = op' then some (l, r) else none := by
  rw [Bracket.splitAt?_append_of_closes hl.closes (hl.splitAt? op')]
  split
  · rename_i h
    simp [Bracket.splitAt?, h]
  · rename_i h
    have hr : Bracket.splitAt? op'.mark 0 (op.mark :: r) = none := by
      rw [Bracket.splitAt?_cons_eq_none_iff, Bracket.depthAfter_of_ne op.mark_ne_open op.mark_ne_close]
      exact ⟨fun hm => absurd (Operator.mark_injective hm) h, hr.splitAt? op'⟩
    rw [hr]
    rfl

theorem ofText_join (hl : Operand l) (hr : Operand r) (op : Operator)
    (h : Form.doubleBody? (l ++ op.mark :: r) = none) : Form.ofText (l ++ op.mark :: r) = op.form l r := by
  have hs := hl.splitAt?_join hr op
  have hp : Form.isPlain (l ++ op.mark :: r) = false :=
    Form.isPlain_eq_false op.mark_mem_marks List.mem_append_cons_self
  have colon : Bracket.splitAt? ':' 0 (l ++ op.mark :: r) = _ := hs .conjugate
  have comma : Bracket.splitAt? ',' 0 (l ++ op.mark :: r) = _ := hs .commutator
  have slash : Bracket.splitAt? '/' 0 (l ++ op.mark :: r) = _ := hs .slash
  unfold Form.ofText
  rw [hp, h, colon, comma, slash]
  cases op <;> rfl

theorem ofText_eq_sideBySide (h : Operand w) (hp : Form.isPlain w = false) (hd : Form.doubleBody? w = none)
    (h2 : 2 ≤ (Bracket.segments w).length) (ht : ∀ part ∈ Bracket.segments w, Form.startsWithTurn part = false) :
    Form.ofText w = .sideBySide (Bracket.segments w) := by
  have colon : Bracket.splitAt? ':' 0 w = none := h.splitAt? .conjugate
  have comma : Bracket.splitAt? ',' 0 w = none := h.splitAt? .commutator
  have slash : Bracket.splitAt? '/' 0 w = none := h.splitAt? .slash
  have ht : (Bracket.segments w).any Form.startsWithTurn = false :=
    List.any_eq_false.mpr fun part hp => Bool.eq_false_iff.mp (ht part hp)
  unfold Form.ofText
  rw [hp, hd, colon, comma, slash]
  have hc : 2 ≤ (Bracket.segments w).length ∧ ! (Bracket.segments w).any Form.startsWithTurn := by
    rw [ht]
    exact ⟨h2, rfl⟩
  exact if_pos hc

theorem groups {ws : List (List Char)} (h : ∀ w ∈ ws, Bracket.Closes 0 w) :
    Operand (ws.map Bracket.group).flatten := by
  induction ws with
  | nil => exact ⟨.nil, fun _ => rfl⟩
  | cons w ws ih =>
      rw [List.forall_mem_cons] at h
      obtain ⟨hc, hs⟩ := ih h.2
      have hw := group h.1
      refine ⟨hw.closes.append hc, fun op => ?_⟩
      rw [List.map_cons, List.flatten_cons, Bracket.splitAt?_append_of_closes hw.closes (hw.splitAt? op), hs op]
      rfl

end Operand

/-! ## Reading -/

namespace Comm

/-- Reads a text without outer brackets that is of a given form. -/
def readAs (text : List Char) : Form → Except CommError Comm
  | .plain => readMoves text
  | .double body => return .double (← read body)
  | .conjugate setup nested => return .conjugate (← read setup) (← read nested)
  | .commutator first second => return .commutator (← read first) (← read second)
  | .slash setup slice => return .slash (← read setup) (← read slice)
  | .sideBySide parts => return .sideBySide (← parts.mapM read)
  | .malformed => .error (.malformed (String.ofList text))

variable {cs w l r : List Char} {c : Comm}

theorem readAs_form (op : Operator) (l r : List Char) :
    readAs cs (op.form l r) = do return op.join (← read l) (← read r) := by
  cases op <;> rfl

theorem read_eq (h : Bracket.Closes 0 cs) :
    read cs = readAs (Bracket.stripOuter cs) (Form.ofText (Bracket.stripOuter cs)) := by
  rw [read, if_pos (Bracket.isBalanced_iff.mpr h)]
  split <;> rename_i hf <;> rw [hf, readAs]
  -- Only the parts of a side by side form are read under a proof that they are parts.
  rw [List.mapM_subtype (g := read), List.unattach_attach]
  intro part _
  rfl

theorem closes_of_read (h : read cs = .ok c) : Bracket.Closes 0 cs := by
  rw [← Bracket.isBalanced_iff]
  by_contra hb
  rw [read, if_neg hb] at h
  cases h

/-- What holds of every form as it is read from its parts, and does not change with outer brackets, holds of
whatever is read. -/
@[elab_as_elim]
theorem read_induct {P : List Char → Comm → Prop}
    (outer : ∀ cs c, Bracket.Closes 0 cs → P (Bracket.stripOuter cs) c → P cs c)
    (plain : ∀ cs s, Form.isPlain cs → Sequence.read cs = .ok s → P cs (.moves s))
    (double : ∀ w c, P w c → P ('(' :: (w ++ [')', '2'])) (.double c))
    (join : ∀ (op : Operator) l r a b, P l a → P r b → P (l ++ op.mark :: r) (op.join a b))
    (sideBySide : ∀ cs parts, 2 ≤ (Bracket.segments cs).length →
      (∀ part ∈ Bracket.segments cs, Form.startsWithTurn part = false) →
      List.Forall₂ P (Bracket.segments cs) parts → P cs (.sideBySide parts))
    (h : read cs = .ok c) : P cs c := by
  induction hn : cs.length using Nat.strong_induction_on generalizing cs c with
  | _ n ih =>
      have hc := closes_of_read h
      refine outer cs c hc ?_
      rw [read_eq hc] at h
      have hlt : ∀ part ∈ (Form.ofText (Bracket.stripOuter cs)).parts, part.length < n := by
        intro part hp
        rw [← hn]
        exact Nat.lt_of_lt_of_le (Form.length_lt_of_mem_parts hp) (Bracket.length_stripOuter_le cs)
      have hf := Form.fits_ofText (Bracket.stripOuter cs)
      generalize Form.ofText (Bracket.stripOuter cs) = form at h hlt hf
      generalize Bracket.stripOuter cs = text at h hf ⊢
      cases hf with
      | plain hp =>
          rw [readAs, readMoves] at h
          split at h
          · cases h
            exact plain _ _ hp ‹_›
          · cases h
      | double body =>
          obtain ⟨b, hb, h⟩ := Outcome.bind_eq_ok_iff.mp h
          cases h
          exact double _ _ (ih _ (hlt _ (by simp [Form.parts])) hb rfl)
      | join op l r _ =>
          rw [readAs_form] at h
          have hl : l.length < n := hlt l (by cases op <;> simp [Operator.form, Form.parts])
          have hr : r.length < n := hlt r (by cases op <;> simp [Operator.form, Form.parts])
          obtain ⟨a, ha, h⟩ := Outcome.bind_eq_ok_iff.mp h
          obtain ⟨b, hb, h⟩ := Outcome.bind_eq_ok_iff.mp h
          cases h
          exact join _ _ _ _ _ (ih _ hl ha rfl) (ih _ hr hb rfl)
      | sideBySide h2 ht =>
          obtain ⟨parts, hp, he⟩ := Outcome.bind_eq_ok_iff.mp h
          cases he
          have hread :=
            (List.forall₂_and_left (Bracket.segments text) parts).mpr ⟨hlt, Outcome.mapM_eq_ok_iff.mp hp⟩
          exact sideBySide _ _ h2 ht (hread.imp fun _ _ hr => ih _ hr.1 hr.2 rfl)
      | malformed => cases h

theorem read_trimStart (h : Bracket.Closes 0 w) : read (Text.trimStart w) = read w := by
  rw [read_eq h, read_eq h.trimStart, Bracket.stripOuter_congr (Text.trim_trimStart w)]

theorem read_trimEnd (h : Bracket.Closes 0 w) : read (Text.trimEnd w) = read w := by
  rw [read_eq h, read_eq h.trimEnd, Bracket.stripOuter_congr (Text.trim_trimEnd w)]

theorem read_group (h : Bracket.Closes 0 w) : read (Bracket.group w) = read w := by
  rw [read_eq h, read_eq h.group, Bracket.stripOuter_group h]

theorem read_of_isPlain (h : Form.isPlain cs) : read cs = readMoves cs := by
  have hne := Form.isPlain_iff.mp h
  have hc : Bracket.Closes 0 cs := by
    refine Bracket.closes_of_ne fun c hc => ?_
    constructor <;> rintro rfl <;> exact hne _ hc (by decide)
  have ht : ∀ c ∈ Text.trim cs, c ∉ Form.marks := fun c hc => hne c ((Text.trim_sublist cs).subset hc)
  have hs : Bracket.stripOuter cs = Text.trim cs := by
    refine Bracket.stripOuter_eq_trim fun inner hi => ?_
    exact absurd (by decide) (ht '[' (hi ▸ List.mem_cons_self))
  rw [read_eq hc, hs, Form.ofText, if_pos (Form.isPlain_iff.mpr ht), readAs, readMoves, Sequence.read_trim]
  rfl

theorem read_double (h : Bracket.Closes 0 w) :
    read ('(' :: (w ++ [')', '2'])) = do return .double (← read w) := by
  have hc : Bracket.Closes 0 ('(' :: (w ++ [')', '2'])) :=
    .other (by decide) (by decide) (h.append (Bracket.isBalanced_iff.mp rfl))
  have ht : Text.trim ('(' :: (w ++ [')', '2'])) = '(' :: (w ++ [')', '2']) := by
    simpa using Text.trim_cons_append (c := '(') (d := '2') (by decide) (by decide) (w ++ [')'])
  have hs : Bracket.stripOuter ('(' :: (w ++ [')', '2'])) = '(' :: (w ++ [')', '2']) := by
    rw [Bracket.stripOuter_eq_trim, ht]
    intro inner hi
    rw [ht] at hi
    cases hi
  rw [read_eq hc, hs, Form.ofText_double (Form.doubleBody?_eq_some_iff.mpr rfl), readAs]

/-- Operands with an operator between them are read one after the other. -/
theorem read_join (hl : Operand l) (hr : Operand r) (op : Operator)
    (h : ¬ Form.Straddles (Text.trimStart l) (Text.trimEnd r)) :
    read (l ++ op.mark :: r) = do return op.join (← read l) (← read r) := by
  rw [read_eq (hl.closes_join hr op), Bracket.stripOuter_append_cons hl.closes op.isBlank_mark op.mark_ne_open,
    hl.trimStart.ofText_join hr.trimEnd op (Form.doubleBody?_eq_none h), readAs_form, read_trimStart hl.closes,
    read_trimEnd hr.closes]

theorem read_join_groups (op : Operator) {a b : Comm} (ha : read l = .ok a) (hb : read r = .ok b) :
    read (Bracket.group l ++ op.mark :: Bracket.group r) = .ok (op.join a b) := by
  have hl := closes_of_read ha
  have hr := closes_of_read hb
  have hs : ¬ Form.Straddles (Text.trimStart (Bracket.group l)) (Text.trimEnd (Bracket.group r)) := by
    rintro ⟨h, -⟩
    cases h
  rw [read_join (.group hl) (.group hr) op hs, read_group hl, read_group hr, ha, hb]
  rfl

/-- When a round bracket opens the first operand and closes the second, the operator is not seen. -/
theorem read_straddling (hl : Operand l) (hr : Operand r) (op : Operator) {x y : List Char}
    (hx : Text.trimStart l = '(' :: x) (hy : Text.trimEnd r = y ++ [')', '2']) :
    read (l ++ op.mark :: r) = do return .double (← read (x ++ op.mark :: y)) := by
  have hb : Form.doubleBody? (Text.trimStart l ++ op.mark :: Text.trimEnd r) = some (x ++ op.mark :: y) := by
    rw [Form.doubleBody?_eq_some_iff, hx, hy]
    simp
  rw [read_eq (hl.closes_join hr op), Bracket.stripOuter_append_cons hl.closes op.isBlank_mark op.mark_ne_open,
    Form.ofText_double hb, readAs]

/-- Groups side by side are read in order. -/
theorem read_groups {ws : List (List Char)} {cs : List Comm} (h2 : 2 ≤ ws.length)
    (h : List.Forall₂ (fun w c => read w = .ok c) ws cs) :
    read (ws.map Bracket.group).flatten = .ok (.sideBySide cs) := by
  have hc : ∀ w ∈ ws, Bracket.Closes 0 w := by
    intro w hw
    obtain ⟨c, hr⟩ := Outcome.exists_ok_of_mapM (Outcome.mapM_eq_ok_iff.mpr h) hw
    exact closes_of_read hr
  have ho := Operand.groups hc
  have hs := Bracket.segments_groups hc
  have hf : Form.ofText (ws.map Bracket.group).flatten = .sideBySide (ws.map Bracket.group) := by
    obtain ⟨inner, hi⟩ := Bracket.exists_flatten_eq_group (List.ne_nil_of_length_pos (by omega : 0 < ws.length))
    rw [ho.ofText_eq_sideBySide, hs]
    · rw [hi]; rfl
    · rw [hi]; rfl
    · rwa [hs, List.length_map]
    · rw [hs]
      intro part hpart
      obtain ⟨w, -, rfl⟩ := List.mem_map.mp hpart
      rfl
  have hr : (ws.map Bracket.group).mapM read = .ok cs := by
    rw [Outcome.mapM_eq_ok_iff, List.forall₂_map_left_iff]
    exact h.imp fun w c hw => (read_group (closes_of_read hw)).trans hw
  rw [read_eq ho.closes, Bracket.stripOuter_groups h2 hc, hf, readAs, hr]
  rfl

end Comm
end Blindfold
