import Blindfold.Comm.Bracket
import Blindfold.Proofs.Words

/-!
# Brackets in longer texts

A balanced text stays closed wherever it stands: it hides its marks from a split, it is cut as one group, and
the brackets at its ends are not taken for those of the longer text.
-/

namespace Blindfold.Bracket

/-- The text closes `depth` open brackets and all of its own. -/
inductive Closes : (depth : Nat) → List Char → Prop
  | nil : Closes 0 []
  | opening {depth : Nat} {w : List Char} : Closes (depth + 1) w → Closes depth ('[' :: w)
  | closing {depth : Nat} {w : List Char} : Closes depth w → Closes (depth + 1) (']' :: w)
  | other {depth : Nat} {w : List Char} {c : Char} (ho : c ≠ '[') (hc : c ≠ ']') :
      Closes depth w → Closes depth (c :: w)

variable {depth k : Nat} {c mark : Char} {w l r inner blanks cs : List Char}

theorem closes_cons_of_ne (ho : c ≠ '[') (hc : c ≠ ']') (w : List Char) :
    closes depth (c :: w) = closes depth w :=
  closes.eq_5 _ _ _ ho (fun _ => hc) fun _ _ => hc

theorem depthAfter_of_ne (ho : c ≠ '[') (hc : c ≠ ']') (depth : Nat) : depthAfter depth c = depth :=
  depthAfter.eq_3 _ _ ho hc

theorem closes_iff : closes depth w = true ↔ Closes depth w := by
  constructor
  · intro h
    fun_induction closes depth w with
    | case1 depth => rw [beq_iff_eq.mp h]; exact .nil
    | case2 depth w ih => exact .opening (ih h)
    | case3 w => cases h
    | case4 depth w ih => exact .closing (ih h)
    | case5 depth c w ho h0 hs ih =>
        refine .other ho ?_ (ih h)
        cases depth with
        | zero => exact h0 rfl
        | succ depth => exact hs depth rfl
  · intro h
    induction h with
    | nil => rfl
    | opening _ ih => exact ih
    | closing _ ih => exact ih
    | other ho hc _ ih => rw [closes_cons_of_ne ho hc, ih]

theorem isBalanced_iff : isBalanced w = true ↔ Closes 0 w := closes_iff

theorem Closes.closes_append (h : Closes k w) (depth : Nat) (r : List Char) :
    closes (depth + k) (w ++ r) = closes depth r := by
  induction h with
  | nil => rfl
  | opening _ ih => exact ih
  | closing _ ih => exact ih
  | other ho hc _ ih => rw [List.cons_append, closes_cons_of_ne ho hc, ih]

theorem Closes.append (h : Closes 0 w) (hr : Closes depth r) : Closes depth (w ++ r) := by
  rw [← closes_iff] at hr ⊢
  exact (h.closes_append depth r).trans hr

theorem Closes.of_append (h : Closes depth (w ++ r)) (hw : Closes 0 w) : Closes depth r := by
  rw [← closes_iff] at h ⊢
  exact (hw.closes_append depth r).symm.trans h

/-- A text that closes more than is open is not closed by what follows. -/
theorem Closes.not_append (h : Closes (depth + 1) w) (r : List Char) : ¬ Closes depth (w ++ r) := by
  generalize hk : depth + 1 = k at h
  induction h generalizing depth with
  | nil => cases hk
  | opening _ ih =>
      rintro (_ | h | _ | ⟨ho, _, _⟩)
      · exact ih (congrArg (· + 1) hk) h
      · exact ho rfl
  | closing _ ih =>
      cases hk
      rintro (_ | _ | h | ⟨_, hc, _⟩)
      · exact ih rfl h
      · exact hc rfl
  | other ho hc _ ih =>
      rintro (_ | _ | _ | ⟨_, _, h⟩)
      · exact ho rfl
      · exact hc rfl
      · exact ih hk h

theorem Closes.of_append_right (h : Closes depth (w ++ r)) (hr : Closes 0 r) : Closes depth w := by
  induction w generalizing depth with
  | nil =>
      rw [← closes_iff] at h ⊢
      have hd := hr.closes_append depth []
      rw [List.append_nil] at hd
      exact hd.symm.trans h
  | cons c w ih =>
      cases h with
      | opening h => exact .opening (ih h)
      | closing h => exact .closing (ih h)
      | other ho hc h => exact .other ho hc (ih h)

theorem closes_of_ne (h : ∀ c ∈ w, c ≠ '[' ∧ c ≠ ']') : Closes 0 w := by
  induction w with
  | nil => exact .nil
  | cons c w ih =>
      rw [List.forall_mem_cons] at h
      exact .other h.1.1 h.1.2 (ih h.2)

theorem closes_blanks (h : Text.isAllBlank blanks) : Closes 0 blanks := by
  refine closes_of_ne fun c hc => ?_
  have hb := List.all_eq_true.mp h c hc
  constructor <;> rintro rfl <;> cases hb

theorem Closes.trimStart (h : Closes 0 w) : Closes 0 (Text.trimStart w) := by
  obtain ⟨blanks, hb, he⟩ := Text.exists_trimStart w
  rw [he] at h
  exact h.of_append (closes_blanks hb)

theorem Closes.trimEnd (h : Closes 0 w) : Closes 0 (Text.trimEnd w) := by
  obtain ⟨blanks, hb, he⟩ := Text.exists_trimEnd w
  rw [he] at h
  exact h.of_append_right (closes_blanks hb)

/-! ## Groups and outer brackets -/

/-- The text in brackets. -/
def group (w : List Char) : List Char := '[' :: (w ++ [']'])

theorem Closes.group (h : Closes 0 w) : Closes 0 (group w) := by
  refine .opening (closes_iff.mp ?_)
  exact h.closes_append 1 [']']

theorem interior?_eq_some_iff : interior? cs = some inner ↔ cs = group inner := by
  constructor
  · intro h
    unfold interior? at h
    split at h
    · rename_i rest
      split at h
      · rename_i hl
        cases h
        rw [group, List.dropLast_append_getLast? _ hl]
      · cases h
    · cases h
  · rintro rfl
    simp [interior?, Bracket.group]

@[simp]
theorem trim_group (w : List Char) : Text.trim (group w) = group w :=
  Text.trim_cons_append (by decide) (by decide) w

theorem stripOuter_eq_trim (h : ∀ inner, Text.trim cs = group inner → ¬ Closes 0 inner) :
    stripOuter cs = Text.trim cs := by
  rw [stripOuter]
  split
  · rename_i inner hi
    rw [if_neg (mt isBalanced_iff.mp (h inner (interior?_eq_some_iff.mp hi)))]
  · rfl

theorem stripOuter_group (h : Closes 0 w) : stripOuter (group w) = stripOuter w := by
  rw [stripOuter]
  rw [trim_group]
  split
  · rename_i inner hi
    obtain rfl : w = inner := by simpa [group] using interior?_eq_some_iff.mp hi
    rw [if_pos (isBalanced_iff.mpr h)]
  · rename_i hn
    rw [interior?_eq_some_iff.mpr rfl] at hn
    cases hn

theorem stripOuter_congr (h : Text.trim w = Text.trim r) : stripOuter w = stripOuter r := by
  rw [stripOuter, stripOuter, h]

theorem trim_stripOuter (cs : List Char) : Text.trim (stripOuter cs) = stripOuter cs := by
  fun_induction stripOuter cs with
  | case1 _ _ _ _ _ ih => exact ih
  | case2 => exact Text.trim_trim _
  | case3 => exact Text.trim_trim _

/-- What holds of a text without its outer brackets, and does not change with blanks at either end or brackets
around, holds of the text. -/
theorem of_stripOuter {P : List Char → Prop} (left : ∀ blanks w, Text.isAllBlank blanks → P w → P (blanks ++ w))
    (right : ∀ w blanks, Text.isAllBlank blanks → P w → P (w ++ blanks)) (outer : ∀ w, P w → P (group w))
    (h : P (stripOuter cs)) : P cs := by
  fun_induction stripOuter cs with
  | case1 cs text inner hi _ ih =>
      have ht : text = group inner := interior?_eq_some_iff.mp hi
      exact Text.of_trim left right (show P text from ht ▸ outer inner (ih h))
  | case2 => exact Text.of_trim left right h
  | case3 => exact Text.of_trim left right h

/-- The brackets at the two ends of a text do not belong together when a balanced part of it ends before. -/
theorem Closes.not_closes_inner (hl : Closes 0 l) (hne : l ≠ []) (hr : r ≠ []) (h : l ++ r = Bracket.group inner) :
    ¬ Closes 0 inner := by
  obtain ⟨r', c, rfl⟩ := (List.eq_nil_or_concat r).resolve_left hr
  cases hl with
  | nil => exact absurd rfl hne
  | opening hl =>
      rename_i l
      rw [Bracket.group, List.concat_eq_append, List.cons_append, ← List.append_assoc] at h
      obtain rfl := (List.append_inj' (List.cons.inj h).2 rfl).1
      exact hl.not_append r'
  | other ho _ _ => exact absurd (List.cons.inj h).1 ho

theorem stripOuter_append_cons (hl : Closes 0 l) (hb : Text.isBlank mark = false) (hm : mark ≠ '[')
    (r : List Char) : stripOuter (l ++ mark :: r) = Text.trimStart l ++ mark :: Text.trimEnd r := by
  rw [stripOuter_eq_trim, Text.trim_append_cons hb]
  intro inner h
  rw [Text.trim_append_cons hb] at h
  by_cases hs : Text.trimStart l = []
  · rw [hs] at h
    exact absurd (List.cons.inj h).1 hm
  · exact hl.trimStart.not_closes_inner hs (List.cons_ne_nil _ _) h

/-! ## Splits -/

theorem splitAt?_append (h : splitAt? mark depth w = none) (r : List Char) :
    splitAt? mark depth (w ++ r) =
      (splitAt? mark (w.foldl depthAfter depth) r).map fun parts => (w ++ parts.1, parts.2) := by
  induction w generalizing depth with
  | nil => simp
  | cons c w ih =>
      rw [splitAt?] at h
      split at h
      · cases h
      · rename_i hc
        rw [Option.map_eq_none_iff] at h
        rw [List.cons_append, splitAt?, if_neg hc, ih h, Option.map_map]
        rfl

theorem splitAt?_of_append (h : splitAt? mark depth (w ++ r) = none) : splitAt? mark depth w = none := by
  induction w generalizing depth with
  | nil => rfl
  | cons c w ih =>
      rw [List.cons_append, splitAt?] at h
      rw [splitAt?]
      split at h
      · cases h
      · rename_i hc
        rw [Option.map_eq_none_iff] at h
        rw [if_neg hc, ih h]
        rfl

theorem Closes.foldl_depthAfter (h : Closes k w) (depth : Nat) : w.foldl depthAfter (depth + k) = depth := by
  induction h with
  | nil => rfl
  | opening _ ih => exact ih
  | closing _ ih => exact ih
  | other ho hc _ ih =>
      rw [List.foldl_cons, depthAfter_of_ne ho hc, ih]

/-- Inside of brackets there is no mark to split at. -/
theorem Closes.splitAt?_eq_none (h : Closes k w) (mark : Char) (depth : Nat) :
    splitAt? mark (depth + 1 + k) w = none := by
  have cons {c : Char} {w : List Char} {n m : Nat} (hn : n ≠ 0) (hd : depthAfter n c = m)
      (ih : splitAt? mark m w = none) : splitAt? mark n (c :: w) = none := by
    rw [splitAt?, if_neg fun h => hn h.2, hd, ih]
    rfl
  induction h with
  | nil => rfl
  | opening _ ih => exact cons (by omega) rfl ih
  | closing _ ih => exact cons (by omega) rfl ih
  | other ho hc _ ih => exact cons (by omega) (depthAfter_of_ne ho hc _) ih

theorem splitAt?_group (h : Closes 0 w) (ho : mark ≠ '[') (hc : mark ≠ ']') :
    splitAt? mark 0 (group w) = none := by
  have hw : splitAt? mark 1 (w ++ [']']) = none := by
    rw [splitAt?_append (h.splitAt?_eq_none mark 0)]
    simp [splitAt?, hc.symm]
  rw [group, splitAt?, if_neg fun h => ho h.1.symm, depthAfter, hw]
  rfl

theorem splitAt?_append_of_closes (hw : Closes 0 w) (h : splitAt? mark 0 w = none) (r : List Char) :
    splitAt? mark 0 (w ++ r) = (splitAt? mark 0 r).map fun parts => (w ++ parts.1, parts.2) := by
  rw [splitAt?_append h, hw.foldl_depthAfter 0]

theorem splitAt?_trimStart (hw : splitAt? mark 0 w = none) : splitAt? mark 0 (Text.trimStart w) = none := by
  obtain ⟨blanks, hb, he⟩ := Text.exists_trimStart w
  rw [he] at hw
  rw [splitAt?_append_of_closes (closes_blanks hb) (splitAt?_of_append hw)] at hw
  exact Option.map_eq_none_iff.mp hw

theorem splitAt?_trimEnd (hw : splitAt? mark 0 w = none) : splitAt? mark 0 (Text.trimEnd w) = none := by
  obtain ⟨blanks, -, he⟩ := Text.exists_trimEnd w
  rw [he] at hw
  exact splitAt?_of_append hw

theorem splitAt?_blanks_append (hm : Text.isBlank mark = false) (hb : Text.isAllBlank blanks) (depth : Nat)
    (w : List Char) :
    splitAt? mark depth (blanks ++ w) = (splitAt? mark depth w).map fun (l, r) => (blanks ++ l, r) := by
  induction blanks with
  | nil => simp
  | cons c blanks ih =>
      rw [Text.isAllBlank, List.all_cons, Bool.and_eq_true] at hb
      have hd : depthAfter depth c = depth :=
        depthAfter_of_ne (Text.ne_of_isBlank hb.1 rfl) (Text.ne_of_isBlank hb.1 rfl) depth
      rw [List.cons_append, splitAt?, if_neg fun h => Text.ne_of_isBlank hb.1 hm h.1, hd, ih hb.2, Option.map_map]
      rfl

theorem splitAt?_blanks (hm : Text.isBlank mark = false) (hb : Text.isAllBlank blanks) (depth : Nat) :
    splitAt? mark depth blanks = none := by
  simpa [splitAt?] using splitAt?_blanks_append hm hb depth []

theorem forall_cons_eq_append {P : List Char → Prop} :
    (∀ before after, c :: w = before ++ mark :: after → P before) ↔
      (c = mark → P []) ∧ ∀ before after, w = before ++ mark :: after → P (c :: before) := by
  constructor
  · intro h
    exact ⟨fun hc => h [] w (by rw [hc]; rfl), fun before after hw => h (c :: before) after (by rw [hw]; rfl)⟩
  · rintro ⟨h0, hs⟩ before after h
    cases before with
    | nil => exact h0 (List.cons.inj h).1
    | cons b before =>
        obtain ⟨rfl, hw⟩ := List.cons.inj h
        exact hs before after hw

theorem splitAt?_cons_eq_none_iff : splitAt? mark depth (c :: w) = none ↔
    (c = mark → depth ≠ 0) ∧ splitAt? mark (depthAfter depth c) w = none := by
  rw [splitAt?]
  split
  · rename_i h
    simp [h.1, h.2]
  · rename_i h
    simpa [Option.map_eq_none_iff] using fun _ hc hd => h ⟨hc, hd⟩

/-- A split finds no mark exactly when no mark has as many closing as opening brackets before it. -/
theorem Closes.splitAt?_eq_none_iff (h : Closes depth w) : splitAt? mark depth w = none ↔
    ∀ before after, w = before ++ mark :: after → depth + before.count '[' ≠ before.count ']' := by
  induction h with
  | nil => simp [splitAt?]
  | opening _ ih =>
      rw [splitAt?_cons_eq_none_iff, forall_cons_eq_append, depthAfter, ih]
      simp [Nat.add_assoc, Nat.add_comm 1]
  | closing _ ih =>
      rw [splitAt?_cons_eq_none_iff, forall_cons_eq_append, depthAfter, Nat.add_sub_cancel, ih]
      simp [Nat.add_right_comm]
  | other ho hc _ ih =>
      rw [splitAt?_cons_eq_none_iff, forall_cons_eq_append, depthAfter_of_ne ho hc, ih]
      simp [ho, hc]

/-! ## Groups side by side -/

theorem cut_cons_of_ne (ho : c ≠ '[') (hc : c ≠ ']') (w : List Char) :
    cut depth (c :: w) = Text.consFirst c (cut depth w) := by
  rw [cut.eq_4 depth c w (fun _ => ho) (fun _ => hc), depthAfter_of_ne ho hc]

theorem cut_opening (depth : Nat) (w : List Char) :
    cut (depth + 1) ('[' :: w) = Text.consFirst '[' (cut (depth + 2) w) :=
  cut.eq_4 (depth + 1) '[' w nofun nofun

theorem cut_closing (depth : Nat) (w : List Char) :
    cut (depth + 2) (']' :: w) = Text.consFirst ']' (cut (depth + 1) w) :=
  cut.eq_4 (depth + 2) ']' w nofun nofun

theorem cut_blanks_append (hb : Text.isAllBlank blanks) {first : List Char} {rest : List (List Char)}
    (h : cut depth w = first :: rest) : cut depth (blanks ++ w) = (blanks ++ first) :: rest := by
  induction blanks with
  | nil => exact h
  | cons c blanks ih =>
      rw [Text.isAllBlank, List.all_cons, Bool.and_eq_true] at hb
      rw [List.cons_append, cut_cons_of_ne (Text.ne_of_isBlank hb.1 rfl) (Text.ne_of_isBlank hb.1 rfl), ih hb.2]
      rfl

/-- A character begins a piece, ends one or goes on with it, whatever comes after it. -/
theorem cut_cons (depth : Nat) (c : Char) :
    ∃ next, (∀ w, cut depth (c :: w) = [] :: Text.consFirst c (cut next w)) ∨
      (∀ w, cut depth (c :: w) = [c] :: cut next w) ∨ ∀ w, cut depth (c :: w) = Text.consFirst c (cut next w) := by
  by_cases ho : depth = 0 ∧ c = '['
  · obtain ⟨rfl, rfl⟩ := ho
    exact ⟨1, .inl fun w => by rw [cut]⟩
  · by_cases hc : depth = 1 ∧ c = ']'
    · obtain ⟨rfl, rfl⟩ := hc
      exact ⟨0, .inr (.inl fun w => by rw [cut])⟩
    · refine ⟨depthAfter depth c, .inr (.inr fun w => ?_)⟩
      exact cut.eq_4 depth c w (fun h0 h => ho ⟨h0, h⟩) fun h1 h => hc ⟨h1, h⟩

theorem Closes.cut_append (h : Closes k w) (r : List Char) :
    cut (k + 1) (w ++ ']' :: r) = (w ++ [']']) :: cut 0 r := by
  induction h with
  | nil => rfl
  | opening _ ih =>
      rw [List.cons_append, cut_opening, ih]
      rfl
  | closing _ ih =>
      rw [List.cons_append, cut_closing, ih]
      rfl
  | other ho hc _ ih =>
      rw [List.cons_append, cut_cons_of_ne ho hc, ih]
      rfl

theorem exists_flatten_eq_group {ws : List (List Char)} (h : ws ≠ []) :
    ∃ inner, (ws.map group).flatten = group inner := by
  induction ws with
  | nil => exact absurd rfl h
  | cons w ws ih =>
      cases ws with
      | nil => exact ⟨w, by simp⟩
      | cons v ws =>
          obtain ⟨inner, hi⟩ := ih (List.cons_ne_nil _ _)
          refine ⟨w ++ ']' :: '[' :: inner, ?_⟩
          rw [List.map_cons, List.flatten_cons, hi]
          simp [group]

/-- Two groups or more are not a single one. -/
theorem stripOuter_groups {ws : List (List Char)} (h2 : 2 ≤ ws.length) (h : ∀ w ∈ ws, Closes 0 w) :
    stripOuter (ws.map group).flatten = (ws.map group).flatten := by
  match ws, h2 with
  | w :: v :: ws, _ =>
      obtain ⟨inner, hi⟩ := exists_flatten_eq_group (List.cons_ne_nil w (v :: ws))
      have ht : Text.trim ((w :: v :: ws).map group).flatten = ((w :: v :: ws).map group).flatten := by
        rw [hi, trim_group]
      rw [stripOuter_eq_trim, ht]
      intro inner hi
      rw [ht, List.map_cons, List.flatten_cons] at hi
      have hw : Closes 0 (group w) := Closes.group (h w List.mem_cons_self)
      exact hw.not_closes_inner (List.cons_ne_nil _ _) (List.cons_ne_nil _ _) hi

theorem segments_groups {ws : List (List Char)} (h : ∀ w ∈ ws, Closes 0 w) :
    segments (ws.map group).flatten = ws.map group := by
  induction ws with
  | nil => rfl
  | cons w ws ih =>
      rw [List.forall_mem_cons] at h
      have hc : cut 0 (group w ++ (ws.map group).flatten) = [] :: group w :: cut 0 (ws.map group).flatten := by
        rw [group, List.cons_append, List.append_assoc, cut, List.singleton_append, h.1.cut_append]
        rfl
      rw [segments] at ih ⊢
      rw [List.map_cons, List.flatten_cons, hc, List.filter_cons_of_neg (by decide),
        List.filter_cons_of_pos (by simp [Text.isAllBlank, group, Text.isBlank]), ih h.2]

end Blindfold.Bracket
