import Mathlib.Algebra.Order.Floor.Div
import Blindfold.Proofs.Outcome
import Blindfold.Sheet.Validation

/-!
# Sharing out a batch

Runs of a list are as long as they should be and together are the list. What workers make of the runs, each up to its
first error, is put together to what one worker would make of the list: `Batch.mapShared_eq`.
-/

namespace Blindfold.Batch

variable {α β ε : Type} {size : Nat} {xs : List α}

/-- The runs are the list cut after every `size` elements. -/
structure Cuts (size : Nat) (xs : List α) (runs : List (List α)) : Prop where
  flatten_eq : runs.flatten = xs
  length_run {run : List α} : run ∈ runs → 1 ≤ run.length ∧ run.length ≤ size
  /-- Only the last run may be shorter. -/
  length_inner {run : List α} : run ∈ runs.dropLast → run.length = size

theorem flatten_chunks (size : Nat) (xs : List α) : (chunks size xs).flatten = xs := by
  fun_induction chunks size xs with
  | case1 => rfl
  | case2 x xs ih => rw [List.flatten_cons, ih, List.cons_append, List.take_append_drop]

theorem length_of_mem_chunks (hs : 1 ≤ size) {run : List α} (h : run ∈ chunks size xs) :
    1 ≤ run.length ∧ run.length ≤ size := by
  fun_induction chunks size xs with
  | case1 => cases h
  | case2 x xs ih =>
      rcases List.mem_cons.mp h with rfl | h
      · rw [List.length_cons, List.length_take]
        omega
      · exact ih h

theorem length_of_mem_dropLast_chunks (hs : 1 ≤ size) {run : List α} (h : run ∈ (chunks size xs).dropLast) :
    run.length = size := by
  fun_induction chunks size xs with
  | case1 => cases h
  | case2 x xs ih =>
      by_cases hd : chunks size (xs.drop (size - 1)) = []
      · rw [hd] at h
        cases h
      · rw [List.dropLast_cons_of_ne_nil hd] at h
        rcases List.mem_cons.mp h with rfl | h
        · have hlen : size - 1 < xs.length := by
            by_contra hle
            rw [List.drop_eq_nil_of_le (Nat.not_lt.mp hle)] at hd
            exact hd (by rw [chunks])
          rw [List.length_cons, List.length_take]
          omega
        · exact ih h

theorem cuts_chunks (hs : 1 ≤ size) (xs : List α) : Cuts size xs (chunks size xs) :=
  ⟨flatten_chunks size xs, length_of_mem_chunks hs, length_of_mem_dropLast_chunks hs⟩

theorem chunkSize_eq (count workers : Nat) : chunkSize count workers = max 1 (count ⌈/⌉ workers) := by
  rw [chunkSize, Nat.ceilDiv_eq_add_pred_div]

theorem mapRuns_eq (f : α → Except ε β) (size : Nat) (xs : List α) :
    ((chunks size xs).mapM (mapRun f)).map List.flatten = xs.mapM f := by
  have h := Outcome.mapM_flatten f (chunks size xs)
  rwa [flatten_chunks] at h

/-- The number of workers makes no difference. -/
theorem mapShared_eq (workers : Nat) (f : α → Except ε β) (xs : List α) :
    mapShared workers f xs = xs.mapM f := by
  unfold mapShared
  split
  · rfl
  · dsimp only
    rw [← mapRuns_eq f (chunkSize xs.length workers), List.mapM_map]
    rfl

end Blindfold.Batch
