import Mathlib.Logic.Relation
import Blindfold.Proofs.Gaps

/-!
# Blanks next to marks

Blanks at the ends of a comm text and next to its marks change neither what is read nor the kind of the error
(`Comm.parse_spaced`): texts that are alike have the same form, with parts that are alike.
-/

namespace Blindfold

/-! ## Forms -/

namespace Text.Alike

variable {prev : Option Char} {w w' : List Char} {d : Char}

theorem isPlain_eq (h : Alike prev w w') : Form.isPlain w = Form.isPlain w' := by
  induction h with
  | blanks hb hb' => rw [Form.isPlain_of_isAllBlank hb, Form.isPlain_of_isAllBlank hb']
  | @cons _ b b' w w' c hb hb' _ _ _ ih =>
      simp only [Form.isPlain_append, Form.isPlain_of_isAllBlank hb, Form.isPlain_of_isAllBlank hb']
      simpa [Form.isPlain] using congrArg _ ih

/-- Among plain moves there is no gap. -/
theorem trimEnd_eq (h : Alike (some d) w w') (hd : d ∉ Form.marks) (hp : Form.isPlain w) :
    Text.trimEnd w = Text.trimEnd w' := by
  generalize he : some d = prev at h
  induction h generalizing d with
  | blanks hb hb' => rw [trimEnd_of_isAllBlank hb, trimEnd_of_isAllBlank hb']
  | @cons _ b b' w w' c hb hb' hc hg h ih =>
      subst he
      have hmem := Form.isPlain_iff.mp hp
      have hcm : c ∉ Form.marks := hmem c List.mem_append_cons_self
      have hng : ¬ IsGap (some d) (some c) := not_isGap (fun h => hd (singleMarks_subset_marks h)) hcm
      rw [trimEnd_append_cons hc, trimEnd_append_cons hc, hg.resolve_right hng,
        ih hcm (Form.isPlain_iff.mpr fun e he => hmem e (by simp [he])) rfl]

theorem trim_eq (h : Alike prev w w') (hp : Form.isPlain w) : Text.trim w = Text.trim w' := by
  cases h with
  | blanks hb hb' => rw [Text.trim, Text.trim, trimStart_of_isAllBlank hb, trimStart_of_isAllBlank hb']
  | @cons _ b b' w w' c hb hb' hc _ h =>
      have hmem := Form.isPlain_iff.mp hp
      have hw : Form.isPlain w := Form.isPlain_iff.mpr fun e he => hmem e (by simp [he])
      rw [trim_append_cons hc, trim_append_cons hc, trimStart_of_isAllBlank hb, trimStart_of_isAllBlank hb',
        h.trimEnd_eq (hmem c List.mem_append_cons_self) hw]

theorem rel_doubleBody? (h : Alike prev w w') (ht : Text.trim w = w) (ht' : Text.trim w' = w') :
    Option.Rel (Alike none) (Form.doubleBody? w) (Form.doubleBody? w') := by
  have double {u v body : List Char} (h : Alike prev u v) (ht : Text.trim v = v) (hb : Form.doubleBody? u = some body) :
      ∃ body', Form.doubleBody? v = some body' ∧ Alike none body body' := by
    rw [Form.doubleBody?_eq_some_iff.mp hb] at h
    obtain ⟨body', hv, ha⟩ := h.trim_eq_double
    exact ⟨body', Form.doubleBody?_eq_some_iff.mpr (ht.symm.trans hv), ha⟩
  cases hb : Form.doubleBody? w with
  | some body =>
      obtain ⟨body', hb', ha⟩ := double h ht' hb
      rw [hb']
      exact .some ha
  | none =>
      cases hb' : Form.doubleBody? w' with
      | none => exact .none
      | some body' =>
          obtain ⟨body, hs, -⟩ := double h.symm ht hb'
          cases hb.symm.trans hs

end Text.Alike

theorem Form.isPlain_of_ofText {cs : List Char} (h : ofText cs = .plain) : isPlain cs := by
  have hf := fits_ofText cs
  generalize ofText cs = form at h hf
  cases hf with
  | plain hp => exact hp
  | join op => cases op <;> cases h
  | _ => cases h

/-- Forms of one kind, whose parts are alike one by one. -/
inductive Form.Alike : Form → Form → Prop
  | plain : Alike plain plain
  | double {body body' : List Char} : Text.Alike none body body' → Alike (double body) (double body')
  | join (op : Operator) {l l' r r' : List Char} :
      Text.Alike none l l' → Text.Alike none r r' → Alike (op.form l r) (op.form l' r')
  | sideBySide {parts parts' : List (List Char)} :
      List.Forall₂ (Text.Alike none) parts parts' → Alike (sideBySide parts) (sideBySide parts')
  | malformed : Alike malformed malformed

theorem Form.alike_ofText {w w' : List Char} (h : Text.Alike none w w') (ht : Text.trim w = w)
    (ht' : Text.trim w' = w') : Alike (ofText w) (ofText w') := by
  have hd := h.rel_doubleBody? ht ht'
  have hs (op : Operator) := h.rel_splitAt? op.isBlank_mark 0
  have colon := hs .conjugate
  have comma := hs .commutator
  have slash := hs .slash
  have hw := h.segments
  simp only [Operator.mark] at colon comma slash
  unfold ofText
  rw [← h.isPlain_eq]
  cases isPlain w with
  | true => exact .plain
  | false =>
      generalize doubleBody? w = x at hd
      generalize doubleBody? w' = x' at hd
      cases hd with
      | some h => exact .double h
      | none =>
          generalize Bracket.splitAt? ':' 0 w = x at colon
          generalize Bracket.splitAt? ':' 0 w' = x' at colon
          cases colon with
          | some h => exact .join .conjugate h.1 h.2
          | none =>
              generalize Bracket.splitAt? ',' 0 w = x at comma
              generalize Bracket.splitAt? ',' 0 w' = x' at comma
              cases comma with
              | some h => exact .join .commutator h.1 h.2
              | none =>
                  generalize Bracket.splitAt? '/' 0 w = x at slash
                  generalize Bracket.splitAt? '/' 0 w' = x' at slash
                  cases slash with
                  | some h => exact .join .slash h.1 h.2
                  | none =>
                      generalize Bracket.segments w = parts at hw
                      generalize Bracket.segments w' = parts' at hw
                      have ht : parts.any startsWithTurn = parts'.any startsWithTurn := by
                        induction hw with
                        | nil => rfl
                        | cons h _ ih => rw [List.any_cons, List.any_cons, h.startsWithTurn_eq, ih]
                      simp only [Bool.false_eq_true, if_false, ← hw.length_eq, ← ht]
                      split
                      · exact .sideBySide hw
                      · exact .malformed

/-! ## Readings -/

namespace Comm

/-- Both readings have the same value, or errors of the same kind; illegal moves are the same in both. -/
inductive SameReading {α : Type} : Except CommError α → Except CommError α → Prop
  | ok (a : α) : SameReading (.ok a) (.ok a)
  | unbalanced (u u' : String) : SameReading (.error (.unbalanced u)) (.error (.unbalanced u'))
  | malformed (u u' : String) : SameReading (.error (.malformed u)) (.error (.malformed u'))
  | illegalMove (e : IllegalMove) : SameReading (.error (.illegalMove e)) (.error (.illegalMove e))

namespace SameReading

variable {α β : Type} {x y z : Except CommError α} {f g : α → Except CommError β}

theorem refl (x : Except CommError α) : SameReading x x := by
  cases x with
  | ok a => exact .ok a
  | error e =>
      cases e with
      | unbalanced u => exact .unbalanced u u
      | malformed u => exact .malformed u u
      | illegalMove e => exact .illegalMove e

theorem trans (h : SameReading x y) (h' : SameReading y z) : SameReading x z := by
  cases h with
  | ok a => exact h'
  | unbalanced u => cases h' with | unbalanced _ u' => exact .unbalanced u u'
  | malformed u => cases h' with | malformed _ u' => exact .malformed u u'
  | illegalMove e => exact h'

theorem bind (h : SameReading x y) (hf : ∀ a, SameReading (f a) (g a)) : SameReading (x >>= f) (y >>= g) := by
  cases h with
  | ok a => exact hf a
  | unbalanced u u' => exact .unbalanced u u'
  | malformed u u' => exact .malformed u u'
  | illegalMove e => exact .illegalMove e

theorem mapM {γ : Type} {f : γ → Except CommError α} {xs ys : List γ}
    (h : List.Forall₂ (fun x y => SameReading (f x) (f y)) xs ys) : SameReading (xs.mapM f) (ys.mapM f) := by
  induction h with
  | nil => exact .refl _
  | cons h _ ih =>
      rw [List.mapM_cons, List.mapM_cons]
      exact h.bind fun _ => ih.bind fun _ => .ok _

end SameReading

theorem sameReading_readAs {text text' : List Char} {form form' : Form} (hf : Form.Alike form form')
    (hp : form = .plain → text = text')
    (ih : ∀ part ∈ form.parts, ∀ part', Text.Alike none part part' → SameReading (read part) (read part')) :
    SameReading (readAs text form) (readAs text' form') := by
  cases hf with
  | plain =>
      rw [hp rfl]
      exact .refl _
  | double h => exact (ih _ (by simp [Form.parts]) _ h).bind fun _ => .ok _
  | @join op l _ r _ hl hr =>
      rw [readAs_form, readAs_form]
      have hml : l ∈ (op.form l r).parts := by cases op <;> simp [Operator.form, Form.parts]
      have hmr : r ∈ (op.form l r).parts := by cases op <;> simp [Operator.form, Form.parts]
      exact (ih _ hml _ hl).bind fun _ => (ih _ hmr _ hr).bind fun _ => .ok _
  | sideBySide h =>
      have hread := (List.forall₂_and_left _ _).mpr ⟨ih, h⟩
      exact (SameReading.mapM (hread.imp fun _ _ hp => hp.1 _ hp.2)).bind fun _ => .ok _
  | malformed => exact .malformed _ _

theorem sameReading_of_alike {w w' : List Char} (h : Text.Alike none w w') : SameReading (read w) (read w') := by
  -- On the length: the parts on which reading goes on are shorter, and they are alike one by one.
  induction hn : w.length using Nat.strong_induction_on generalizing w w' with
  | _ n ih =>
      by_cases hc : Bracket.Closes 0 w
      · have hs := h.stripOuter hc
        have ht := Bracket.trim_stripOuter w
        have ht' := Bracket.trim_stripOuter w'
        rw [read_eq hc, read_eq (h.closes hc)]
        refine sameReading_readAs (Form.alike_ofText hs ht ht') ?plain fun part hp part' ha => ih _ ?shorter ha rfl
        case plain => exact fun hf => by rw [← ht, ← ht', hs.trim_eq (Form.isPlain_of_ofText hf)]
        case shorter =>
            exact hn ▸ Calls.length_lt ⟨hc, hp⟩
      · rw [read_eq_unbalanced_iff.mpr ⟨rfl, hc⟩, read_eq_unbalanced_iff.mpr ⟨rfl, fun hc' => hc (h.symm.closes hc')⟩]
        exact .unbalanced _ _

/-- Blanks put at the ends of a text, before or after its marks, at one place after the other, leave its reading the
same. -/
theorem parse_spaced {t t' : String} (h : Relation.ReflTransGen Text.Spaced t.toList t'.toList) :
    SameReading (parse t) (parse t') := by
  have step {w w' : List Char} (h : Text.Spaced w w') : SameReading (read w) (read w') := sameReading_of_alike h.alike
  rw [parse, parse]
  generalize t.toList = w at h
  generalize t'.toList = w' at h
  induction h with
  | refl => exact .refl _
  | tail _ h ih => exact ih.trans (step h)

theorem parse_spaced_double : Relation.ReflTransGen Text.Spaced "(R)2:[U]D".toList " (R\t)2:[U] \u3000D".toList ∧
    ∃ c, parse "(R)2:[U]D" = .ok c ∧ parse " (R\t)2:[U] \u3000D" = .ok c := by
  have first : Text.Spaced "(R)2:[U]D".toList " (R)2:[U]D".toList :=
    .insert (l := []) (b := [' ']) (r := "(R)2:[U]D".toList) (.start _) rfl
  have second : Text.Spaced " (R)2:[U]D".toList " (R\t)2:[U]D".toList :=
    .insert (l := " (R".toList) (b := ['\t']) (r := ")2:[U]D".toList) (.before _ (c := ')') (by decide)) rfl
  have third : Text.Spaced " (R\t)2:[U]D".toList " (R\t)2:[U] \u3000D".toList :=
    .insert (l := " (R\t)2:[U]".toList) (b := [' ', '\u3000']) (r := ['D'])
      (.after (c := ']') _ (by decide)) rfl
  have h := ((Relation.ReflTransGen.single first).tail second).tail third
  obtain ⟨c, hc, -⟩ := Outcome.exists_ok_of_any (x := parse "(R)2:[U]D") (P := fun _ => true) (by decide +kernel)
  refine ⟨h, c, hc, ?_⟩
  have hs := parse_spaced h
  rw [hc] at hs
  generalize parse " (R\t)2:[U] \u3000D" = x at hs
  cases hs
  rfl

end Comm
end Blindfold
