import Blindfold.Proofs.Forms

/-!
# Operators

Two comms without operators outside of brackets become the operands of an operator that is written between
them, with one exception: when a round bracket opens the first and one closes the second before a final `2`, the
whole is taken for a double and refused (`Comm.parse_operator`).
-/

namespace Blindfold

/-! ## Round brackets -/

section

variable {c : Char} {cs : List Char}

theorem Text.count_blanks (hc : isBlank c = false) {blanks : List Char} (h : isAllBlank blanks) :
    blanks.count c = 0 := by
  rw [List.count_eq_zero]
  intro hm
  exact Bool.eq_false_iff.mp hc (List.all_eq_true.mp h c hm)

theorem Text.count_trimStart (hc : isBlank c = false) (cs : List Char) :
    (trimStart cs).count c = cs.count c := by
  obtain ⟨blanks, hb, he⟩ := exists_trimStart cs
  have h := congrArg (List.count c) he
  rw [List.count_append, count_blanks hc hb, Nat.zero_add] at h
  exact h.symm

theorem Bracket.count_stripOuter (hb : Text.isBlank c = false) (ho : c ≠ '[') (hc : c ≠ ']') (cs : List Char) :
    (stripOuter cs).count c = cs.count c := by
  refine of_stripOuter (P := fun w => (stripOuter cs).count c = w.count c) ?left ?right ?outer rfl
  case left =>
      intro blanks w h hw
      rw [hw, List.count_append, Text.count_blanks hb h, Nat.zero_add]
  case right =>
      intro w blanks h hw
      rw [hw, List.count_append, Text.count_blanks hb h, Nat.add_zero]
  case outer =>
      intro w hw
      rw [hw]
      simp [group, ho.symm, hc.symm]

theorem Bracket.count_segments (hb : Text.isBlank c = false) (cs : List Char) :
    (segments cs).flatten.count c = cs.count c := by
  have h (xss : List (List Char)) :
      (xss.filter (! Text.isAllBlank ·)).flatten.count c = xss.flatten.count c := by
    induction xss with
    | nil => rfl
    | cons xs xss ih =>
        rw [List.filter_cons]
        split
        · rw [List.flatten_cons, List.flatten_cons, List.count_append, List.count_append, ih]
        · rename_i hn
          have hx : xs.count c = 0 := Text.count_blanks hb (by simpa using hn)
          rw [List.flatten_cons, List.count_append, ih, hx, Nat.zero_add]
  rw [segments, h, flatten_cut]

end

namespace Operand

variable {x y : List Char}

theorem of_cons (h : Operand ('(' :: x)) : Operand x := by
  refine ⟨?_, fun op => ?_⟩
  · have hc := h.closes
    cases hc with
    | other _ _ hc => exact hc
  · exact (Bracket.splitAt?_cons_eq_none_iff.mp (h.splitAt? op)).2

theorem of_append (h : Operand (y ++ [')', '2'])) : Operand y :=
  ⟨h.closes.of_append_right (Bracket.isBalanced_iff.mp rfl), fun op => Bracket.splitAt?_of_append (h.splitAt? op)⟩

end Operand

namespace Comm

variable {cs l r : List Char} {a b c : Comm}

/-- What can be read has as many opening as closing round brackets. -/
theorem count_of_read (h : read cs = .ok c) : cs.count '(' = cs.count ')' := by
  refine read_induct (P := fun cs _ => cs.count '(' = cs.count ')') ?outer ?plain ?double ?join ?sideBySide h
  case outer =>
      intro cs c _ ih
      rwa [Bracket.count_stripOuter rfl (by decide) (by decide),
        Bracket.count_stripOuter rfl (by decide) (by decide)] at ih
  case plain =>
      intro cs s hp _
      have hm := Form.isPlain_iff.mp hp
      rw [List.count_eq_zero.mpr fun h => hm _ h (by decide), List.count_eq_zero.mpr fun h => hm _ h (by decide)]
  case double =>
      intro w c ih
      simp [ih]
  case join =>
      intro op l r a b iha ihb
      have ho : op.mark ≠ '(' := by cases op <;> decide
      have hc : op.mark ≠ ')' := by cases op <;> decide
      simp [ho, hc, iha, ihb]
  case sideBySide =>
      intro cs parts _ _ ih
      rw [← Bracket.count_segments rfl, ← Bracket.count_segments (c := ')') rfl, List.count_flatten,
        List.count_flatten, List.map_congr_left fun _ => Outcome.forall_of_forall₂ ih]

theorem count_of_trimStart {x : List Char} (h : Text.trimStart l = '(' :: x) :
    l.count '(' = x.count '(' + 1 ∧ l.count ')' = x.count ')' := by
  rw [← Text.count_trimStart rfl, ← Text.count_trimStart (c := ')') rfl, h]
  exact ⟨List.count_cons_self, List.count_cons_of_ne (by decide)⟩

/-- A first operand that closes more round brackets than it opens is never read. -/
theorem not_read_join (hl : Operand l) (hr : Operand r) (op : Operator) (h : l.count '(' < l.count ')') :
    read (l ++ op.mark :: r) ≠ .ok c := by
  induction hn : l.length using Nat.strong_induction_on generalizing l r c with
  | _ n ih =>
      intro hok
      by_cases hs : Form.Straddles (Text.trimStart l) (Text.trimEnd r)
      · obtain ⟨x, hx⟩ := List.head?_eq_some_iff.mp hs.1
        obtain ⟨y, hy⟩ := hs.2
        rw [read_straddling hl hr op hx hy.symm] at hok
        obtain ⟨b, hb, -⟩ := Outcome.bind_eq_ok_iff.mp hok
        have hx' : Operand x := (hx ▸ hl.trimStart).of_cons
        have hy' : Operand y := (hy ▸ hr.trimEnd).of_append
        have hlen : x.length < n := by
          have := Text.length_trimStart_le l
          rw [hx, List.length_cons] at this
          omega
        obtain ⟨ho, hc⟩ := count_of_trimStart hx
        exact ih _ hlen hx' hy' (by omega) rfl hb
      · rw [read_join hl hr op hs] at hok
        obtain ⟨a, ha, -⟩ := Outcome.bind_eq_ok_iff.mp hok
        exact Nat.ne_of_lt h (count_of_read ha)

/-- Two comms without operators outside of brackets, with an operator between them. -/
theorem parse_operator (op : Operator) {A B : String} (hA : parse A = .ok a) (hB : parse B = .ok b)
    (hideA : HidesOperators A.toList) (hideB : HidesOperators B.toList) :
    (¬ Form.Straddles (Text.trimStart A.toList) (Text.trimEnd B.toList) →
      parse (A ++ String.singleton op.mark ++ B) = .ok (op.join a b)) ∧
    (Form.Straddles (Text.trimStart A.toList) (Text.trimEnd B.toList) →
      ∃ e, parse (A ++ String.singleton op.mark ++ B) = .error e) := by
  have hl : Operand A.toList := (operand_iff (closes_of_read hA)).mpr hideA
  have hr : Operand B.toList := (operand_iff (closes_of_read hB)).mpr hideB
  have ht : (A ++ String.singleton op.mark ++ B).toList = A.toList ++ op.mark :: B.toList := by
    simp
  rw [parse, ht]
  constructor
  · intro hs
    rw [read_join hl hr op hs]
    rw [parse] at hA hB
    rw [hA, hB]
    rfl
  · rintro ⟨hA', y, hy⟩
    obtain ⟨x, hx⟩ := List.head?_eq_some_iff.mp hA'
    obtain ⟨ho, hc⟩ := count_of_trimStart hx
    have hlt : x.count '(' < x.count ')' := by
      have := count_of_read hA
      omega
    rw [read_straddling hl hr op hx hy.symm]
    cases he : read (x ++ op.mark :: y) with
    | ok c => exact absurd he (not_read_join (hx ▸ hl.trimStart).of_cons (hy ▸ hr.trimEnd).of_append op hlt)
    | error e => exact ⟨e, rfl⟩

theorem parse_operator_slash : ∃ a b, parse "(M)2 [U: R]" = .ok a ∧ parse "[R, U]" = .ok b ∧
    HidesOperators "(M)2 [U: R]".toList ∧ HidesOperators "[R, U]".toList ∧
    ¬ Form.Straddles (Text.trimStart "(M)2 [U: R]".toList) (Text.trimEnd "[R, U]".toList) ∧
    parse "(M)2 [U: R]/[R, U]" = .ok (.slash a b) := by
  obtain ⟨a, ha, -⟩ := Outcome.exists_ok_of_any (x := parse "(M)2 [U: R]") (P := fun _ => true) (by decide +kernel)
  obtain ⟨b, hb, -⟩ := Outcome.exists_ok_of_any (x := parse "[R, U]") (P := fun _ => true) (by decide +kernel)
  have hideA : HidesOperators "(M)2 [U: R]".toList :=
    (operand_iff (closes_of_read ha)).mp ⟨closes_of_read ha, fun op => by cases op <;> decide +kernel⟩
  have hideB : HidesOperators "[R, U]".toList :=
    (operand_iff (closes_of_read hb)).mp ⟨closes_of_read hb, fun op => by cases op <;> decide +kernel⟩
  have hs : ¬ Form.Straddles (Text.trimStart "(M)2 [U: R]".toList) (Text.trimEnd "[R, U]".toList) := by
    decide +kernel
  exact ⟨a, b, ha, hb, hideA, hideB, hs, (parse_operator .slash ha hb hideA hideB).1 hs⟩

/-- Both operands are doubles, and the round brackets at the two ends are taken for those of one double. -/
theorem parse_doubles_conjugate : ∃ a b, parse "(R)2" = .ok a ∧ parse "(U)2" = .ok b ∧
    HidesOperators "(R)2".toList ∧ HidesOperators "(U)2".toList ∧
    parse "(R)2:(U)2" = .error (.malformed "R)2") := by
  obtain ⟨a, ha, -⟩ := Outcome.exists_ok_of_any (x := parse "(R)2") (P := fun _ => true) (by decide +kernel)
  obtain ⟨b, hb, -⟩ := Outcome.exists_ok_of_any (x := parse "(U)2") (P := fun _ => true) (by decide +kernel)
  obtain ⟨e, he, hm⟩ := Outcome.exists_error_of_any (x := parse "(R)2:(U)2")
    (P := (· = .malformed "R)2")) (by decide +kernel)
  refine ⟨a, b, ha, hb, (operand_iff (closes_of_read ha)).mp ⟨closes_of_read ha, fun op => ?_⟩,
    (operand_iff (closes_of_read hb)).mp ⟨closes_of_read hb, fun op => ?_⟩, ?_⟩
  · cases op <;> decide +kernel
  · cases op <;> decide +kernel
  · rw [he, of_decide_eq_true hm]

end Comm
end Blindfold
