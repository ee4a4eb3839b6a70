import Blindfold.Text.Blank

/-!
# Square brackets

Only square brackets nest. Here are the balance test, the removal of outer brackets, the split at a mark
outside of brackets and the cut into bracketed groups. All of them read the text once and carry the
depth.

The depth has no upper bound here. It never exceeds the number of opening brackets, so that a counter of 32 bits
holds it in every text with fewer than 2^31 of them. Texts with 2^31 or more are outside of this model.
-/

namespace Blindfold.Bracket

/-- Whether the text closes `depth` open brackets and all of its own. -/
def closes : (depth : Nat) → List Char → Bool
  | depth, [] => depth == 0
  | depth, '[' :: rest => closes (depth + 1) rest
  | 0, ']' :: _ => false
  | depth + 1, ']' :: rest => closes depth rest
  | depth, _ :: rest => closes depth rest

/-- Every prefix has at least as many `[` as `]`, and the whole text equally many. -/
def isBalanced (cs : List Char) : Bool := closes 0 cs

def depthAfter (depth : Nat) : Char → Nat
  | '[' => depth + 1
  | ']' => depth - 1
  | _ => depth

/-- What stands between an opening bracket at the very beginning and a closing one at the very end. -/
def interior? : List Char → Option (List Char)
  | '[' :: rest => if rest.getLast? = some ']' then some rest.dropLast else none
  | _ => none

theorem length_interior? {cs inner : List Char} (h : interior? cs = some inner) :
    inner.length < cs.length := by
  unfold interior? at h
  split at h
  · split at h
    · cases h
      simp only [List.length_dropLast, List.length_cons]
      omega
    · cases h
  · cases h

/-- Removes blanks and outer brackets as long as what is left between them is balanced. -/
def stripOuter (cs : List Char) : List Char :=
  let text := Text.trim cs
  match _h : interior? text with
  | some inner => if isBalanced inner then stripOuter inner else text
  | none => text
termination_by cs.length
decreasing_by exact Nat.lt_of_lt_of_le (length_interior? _h) (Text.length_trim_le cs)

/-- The text before and after the first `mark` outside of brackets. -/
def splitAt? (mark : Char) : (depth : Nat) → List Char → Option (List Char × List Char)
  | _, [] => none
  | depth, c :: rest =>
    if c = mark ∧ depth = 0 then some ([], rest)
    else (splitAt? mark (depthAfter depth c) rest).map fun (before, after) => (c :: before, after)

/-- Bracketed groups and the runs between them, in order; runs may be empty. -/
def cut : (depth : Nat) → List Char → List (List Char)
  | _, [] => [[]]
  | 0, '[' :: rest => [] :: Text.consFirst '[' (cut 1 rest)
  | 1, ']' :: rest => [']'] :: cut 0 rest
  | depth, c :: rest => Text.consFirst c (cut (depthAfter depth c) rest)

/-- The groups and runs that are not blank. -/
def segments (cs : List Char) : List (List Char) := (cut 0 cs).filter (! Text.isAllBlank ·)

/-! ## Nothing is lost and every part is shorter -/

theorem length_stripOuter_le (cs : List Char) : (stripOuter cs).length ≤ cs.length := by
  fun_induction stripOuter cs with
  | case1 cs text inner h hb ih =>
    exact Nat.le_trans ih (Nat.le_of_lt
      (Nat.lt_of_lt_of_le (length_interior? h) (Text.length_trim_le cs)))
  | case2 => exact Text.length_trim_le _
  | case3 => exact Text.length_trim_le _

theorem splitAt?_eq_append {mark : Char} {depth : Nat} {cs before after : List Char}
    (h : splitAt? mark depth cs = some (before, after)) : cs = before ++ mark :: after := by
  induction cs generalizing depth before with
  | nil => simp [splitAt?] at h
  | cons c rest ih =>
    rw [splitAt?] at h
    split at h
    · rename_i hc
      cases h
      simp [hc.1]
    · obtain ⟨⟨b, a⟩, hr, he⟩ := Option.map_eq_some_iff.1 h
      cases he
      simp [ih hr]

@[simp]
theorem flatten_cut (depth : Nat) (cs : List Char) : (cut depth cs).flatten = cs := by
  fun_induction cut depth cs <;> simp_all

theorem flatten_filter_sublist {α : Type} (p : List α → Bool) (xss : List (List α)) :
    (xss.filter p).flatten.Sublist xss.flatten := by
  induction xss with
  | nil => simp
  | cons xs rest ih =>
    rw [List.filter_cons]
    split
    · exact ih.append_left xs
    · exact ih.trans (List.sublist_append_right xs _)

theorem flatten_segments_sublist (cs : List Char) : (segments cs).flatten.Sublist cs := by
  have h := flatten_filter_sublist (fun s => ! Text.isAllBlank s) (cut 0 cs)
  rwa [flatten_cut] at h

theorem segments_ne_nil {cs segment : List Char} (h : segment ∈ segments cs) : segment ≠ [] := by
  rintro rfl
  simp [segments, Text.isAllBlank] at h

/-- One of several lists that are not empty is shorter than all together. -/
theorem length_lt_flatten {α : Type} {xss : List (List α)} {xs : List α} (h2 : 2 ≤ xss.length)
    (hne : ∀ ys ∈ xss, ys ≠ []) (h : xs ∈ xss) : xs.length < xss.flatten.length := by
  obtain ⟨l, r, rfl⟩ := List.append_of_mem h
  have pos : ∀ yss : List (List α), yss ≠ [] → (∀ ys ∈ yss, ys ≠ []) → 0 < yss.flatten.length := by
    intro yss hy hn
    cases yss with
    | nil => exact absurd rfl hy
    | cons y yss =>
      have := List.length_pos_iff.2 (hn y (by simp))
      simp only [List.flatten_cons, List.length_append]
      omega
  simp only [List.length_append, List.length_cons] at h2
  simp only [List.flatten_append, List.flatten_cons, List.length_append]
  by_cases hl : l = []
  · have hr : r ≠ [] := by
      rintro rfl
      simp [hl] at h2
    have := pos r hr fun ys hy => hne ys (by simp [hy])
    omega
  · have := pos l hl fun ys hy => hne ys (by simp [hy])
    omega

theorem length_lt_of_mem_segments {cs segment : List Char} (h2 : 2 ≤ (segments cs).length)
    (h : segment ∈ segments cs) : segment.length < cs.length :=
  Nat.lt_of_lt_of_le (length_lt_flatten h2 (fun _ => segments_ne_nil) h)
    (flatten_segments_sublist cs).length_le

end Blindfold.Bracket
