import Mathlib.Data.List.Infix
import Blindfold.Proofs.Parts

/-!
# Progress

Every text on which reading calls itself is a proper part of the text that it was given, so that calls are never
nested deeper than the text is long: `Comm.parse_progresses`. Groups side by side have no mark between them that a
call would lose; there it is the other groups that are lost.
-/

namespace Blindfold

theorem Text.infix_trim (cs : List Char) : trim cs <:+: cs := by
  obtain ⟨l, r, -, -, h⟩ := exists_trim cs
  exact ⟨l, r, h.symm⟩

namespace Bracket

theorem infix_group (w : List Char) : w <:+: group w := ⟨['['], [']'], rfl⟩

theorem infix_stripOuter (cs : List Char) : stripOuter cs <:+: cs := by
  fun_induction stripOuter cs with
  | case1 cs text inner hi _ ih =>
      have ht : Text.trim cs = group inner := interior?_eq_some_iff.mp hi
      have hcs : group inner <:+: cs := ht ▸ Text.infix_trim cs
      exact ih.trans ((infix_group inner).trans hcs)
  | case2 cs => exact Text.infix_trim cs
  | case3 cs => exact Text.infix_trim cs

/-- The segments of a text are what is not blank of some pieces that make up the whole text. -/
theorem exists_pieces (cs : List Char) :
    ∃ pieces : List (List Char), pieces.flatten = cs ∧ segments cs = pieces.filter (! Text.isAllBlank ·) :=
  ⟨cut 0 cs, flatten_cut 0 cs, rfl⟩

theorem infix_of_mem_segments {cs segment : List Char} (h : segment ∈ segments cs) : segment <:+: cs := by
  obtain ⟨pieces, hp, hs⟩ := exists_pieces cs
  rw [hs] at h
  exact hp ▸ List.infix_of_mem_flatten (List.mem_of_mem_filter h)

theorem not_isAllBlank_of_mem_segments {cs segment : List Char} (h : segment ∈ segments cs) :
    ¬ Text.isAllBlank segment := by
  simpa using (List.mem_filter.mp h).2

end Bracket

namespace Form

variable {cs part : List Char}

theorem infix_of_mem_parts (h : part ∈ (ofText cs).parts) : part <:+: cs := by
  have hf := fits_ofText cs
  generalize ofText cs = form at hf h
  cases hf with
  | plain => cases h
  | double body =>
      obtain rfl := List.mem_singleton.mp h
      exact ⟨['('], [')', '2'], by simp⟩
  | join op l r _ =>
      obtain rfl | rfl : part = l ∨ part = r := by cases op <;> simpa [Operator.form, parts] using h
      · exact (List.prefix_append part _).isInfix
      · exact ((List.suffix_cons op.mark part).trans (List.suffix_append l _)).isInfix
  | sideBySide => exact Bracket.infix_of_mem_segments h
  | malformed => cases h

theorem eq_segments_of_ofText {segments : List (List Char)} (h : ofText cs = .sideBySide segments) :
    2 ≤ segments.length ∧ segments = Bracket.segments cs := by
  have hf := fits_ofText cs
  generalize ofText cs = form at hf h
  cases hf with
  | plain => cases h
  | double => cases h
  | join op => cases op <;> cases h
  | sideBySide h2 =>
      cases h
      exact ⟨h2, rfl⟩
  | malformed => cases h

end Form

/-! ## Reading within a depth -/

namespace Outcome

variable {ε α β : Type}

/-- A step that is taken goes on as without a limit. -/
theorem some_bind {x : Except ε α} {f : α → Except ε β} {g : α → ExceptT ε Option β} (h : ∀ a, g a = some (f a)) :
    (show ExceptT ε Option α from some x) >>= g = some (x >>= f) := by
  cases x with
  | error e => rfl
  | ok a => exact h a

theorem mapM_some {f : α → Except ε β} {g : α → ExceptT ε Option β} {xs : List α} (h : ∀ x ∈ xs, g x = some (f x)) :
    xs.mapM g = some (xs.mapM f) := by
  induction xs with
  | nil => rfl
  | cons x xs ih =>
      rw [List.forall_mem_cons] at h
      rw [List.mapM_cons, List.mapM_cons, h.1, ih h.2]
      exact some_bind fun y => some_bind fun ys => rfl

end Outcome

namespace Comm

/-- Reads a text. Its parts are given to `call`, which may not come to a result. -/
def readWith (call : List Char → ExceptT CommError Option Comm) (cs : List Char) : ExceptT CommError Option Comm :=
  if Bracket.isBalanced cs then
    let text := Bracket.stripOuter cs
    match Form.ofText text with
    | .plain => some (readMoves text)
    | .double body => return .double (← call body)
    | .conjugate setup nested => return .conjugate (← call setup) (← call nested)
    | .commutator first second => return .commutator (← call first) (← call second)
    | .slash setup slice => return .slash (← call setup) (← call slice)
    | .sideBySide parts => return .sideBySide (← parts.mapM call)
    | .malformed => throw (.malformed (String.ofList text))
  else throw (.unbalanced (String.ofList cs))

/-- Reads a text unless that takes calls that are nested deeper than `depth`. -/
def readWithin : (depth : Nat) → List Char → ExceptT CommError Option Comm
  | 0 => readWith fun _ => (none : Option (Except CommError Comm))
  | depth + 1 => readWith (readWithin depth)

variable {cs : List Char} {call : List Char → ExceptT CommError Option Comm}

/-- Reading calls itself on no other texts. -/
theorem readWith_eq (h : ∀ part, Calls cs part → call part = some (read part)) :
    readWith call cs = some (read cs) := by
  have join (f : Comm → Comm → Comm) {l r : List Char} (hp : ∀ part ∈ [l, r], call part = some (read part)) :
      (do return f (← call l) (← call r) : ExceptT CommError Option Comm) =
        some (do return f (← read l) (← read r)) := by
    rw [hp l (by simp), hp r (by simp)]
    exact Outcome.some_bind fun _ => Outcome.some_bind fun _ => rfl
  by_cases hc : Bracket.Closes 0 cs
  · rw [readWith, if_pos (Bracket.isBalanced_iff.mpr hc), read_eq hc]
    dsimp only
    have hcalls : ∀ part ∈ (Form.ofText (Bracket.stripOuter cs)).parts, call part = some (read part) :=
      fun part hp => h part ⟨hc, hp⟩
    generalize Bracket.stripOuter cs = text at hcalls ⊢
    generalize Form.ofText text = form at hcalls ⊢
    cases form with
    | plain => rfl
    | double body =>
        dsimp only
        rw [hcalls body List.mem_cons_self]
        exact Outcome.some_bind fun _ => rfl
    | conjugate setup nested => exact join .conjugate hcalls
    | commutator first second => exact join .commutator hcalls
    | slash setup slice => exact join .slash hcalls
    | sideBySide parts =>
        dsimp only [Form.parts] at hcalls ⊢
        rw [Outcome.mapM_some hcalls]
        exact Outcome.some_bind fun _ => rfl
    | malformed => rfl
  · rw [readWith, read, if_neg (mt Bracket.isBalanced_iff.mp hc), if_neg (mt Bracket.isBalanced_iff.mp hc)]
    rfl

theorem readWithin_eq {depth : Nat} (h : cs.length ≤ depth) : readWithin depth cs = some (read cs) := by
  induction depth generalizing cs with
  | zero =>
      -- An empty text has no shorter part.
      refine readWith_eq fun part hp => ?_
      have := hp.length_lt
      omega
  | succ depth ih =>
      refine readWith_eq fun part hp => ih ?_
      have := hp.length_lt
      omega

theorem Calls.isInfix {whole part : List Char} (h : Calls whole part) : part <:+: whole :=
  (Form.infix_of_mem_parts h.2).trans (Bracket.infix_stripOuter whole)

/-- Reading calls itself on proper parts of a text only. They are all that the result depends on, and no more calls are
ever nested than the text has characters. Texts side by side are at least two that are not blank; in order they make up
the text without its outer brackets, but for pieces that are blank. -/
theorem parse_progresses (t : String) :
    (∀ part, Calls t.toList part → part <:+: t.toList ∧ part.length < t.length) ∧
    (∀ call, (∀ part, Calls t.toList part → call part = some (read part)) → readWith call t.toList = some (parse t)) ∧
    (∀ depth, t.length ≤ depth → readWithin depth t.toList = some (parse t)) ∧
    ∀ segments, Form.ofText (Bracket.stripOuter t.toList) = .sideBySide segments →
      2 ≤ segments.length ∧ (∀ segment ∈ segments, ¬ Text.isAllBlank segment) ∧
      ∃ pieces : List (List Char), pieces.flatten = Bracket.stripOuter t.toList ∧
        segments = pieces.filter (! Text.isAllBlank ·) := by
  refine ⟨fun part h => ⟨h.isInfix, h.length_lt⟩, fun call h => readWith_eq h, fun depth h => readWithin_eq h,
    fun segments h => ?_⟩
  obtain ⟨h2, rfl⟩ := Form.eq_segments_of_ofText h
  exact ⟨h2, fun segment => Bracket.not_isAllBlank_of_mem_segments, Bracket.exists_pieces _⟩

/-- Two calls inside one another are needed for two characters. -/
example : Option.isNone (readWithin 1 "::".toList) = true ∧ Option.isSome (readWithin 2 "::".toList) = true := by
  decide +kernel

end Comm
end Blindfold
