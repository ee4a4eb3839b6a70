import Mathlib.Data.List.Forall2

/-!
# Computations that may fail

When a sequence of steps, a list of steps or a fold succeeds, every step has. When a list of steps fails, it is at
the first step that fails, and it makes no difference whether the list is cut into parts.
-/

namespace Blindfold.Outcome

variable {ε α β : Type}

theorem bind_eq_ok_iff {x : Except ε α} {f : α → Except ε β} {b : β} :
    x >>= f = .ok b ↔ ∃ a, x = .ok a ∧ f a = .ok b := by
  cases x with
  | error e =>
      constructor
      · intro h
        cases h
      · rintro ⟨_, h, _⟩
        cases h
  | ok a =>
      constructor
      · intro h
        exact ⟨a, rfl, h⟩
      · rintro ⟨_, h, hf⟩
        cases h
        exact hf

theorem bind_eq_error_iff {x : Except ε α} {f : α → Except ε β} {e : ε} :
    x >>= f = .error e ↔ x = .error e ∨ ∃ a, x = .ok a ∧ f a = .error e := by
  cases x with
  | error e' =>
      constructor
      · intro h
        cases h
        exact .inl rfl
      · rintro (h | ⟨_, h, _⟩)
        · cases h
          rfl
        · cases h
  | ok a =>
      constructor
      · intro h
        exact .inr ⟨a, rfl, h⟩
      · rintro (h | ⟨_, h, hf⟩)
        · cases h
        · cases h
          exact hf

/-- A success whose value passes a test, both found by running it. -/
theorem exists_ok_of_any {x : Except ε α} {P : α → Bool} (h : x.toOption.any P) : ∃ a, x = .ok a ∧ P a := by
  cases x with
  | error e => cases h
  | ok a => exact ⟨a, rfl, h⟩

/-- A failure whose cause passes a test, both found by running it. -/
theorem exists_error_of_any {x : Except ε α} {P : ε → Bool}
    (h : (match x with | .ok _ => false | .error e => P e) = true) : ∃ e, x = .error e ∧ P e := by
  cases x with
  | ok a => cases h
  | error e => exact ⟨e, rfl, h⟩

theorem mapM_eq_ok_iff {f : α → Except ε β} {xs : List α} {ys : List β} :
    xs.mapM f = .ok ys ↔ List.Forall₂ (fun x y => f x = .ok y) xs ys := by
  induction xs generalizing ys with
  | nil =>
      rw [List.mapM_nil, List.forall₂_nil_left_iff]
      exact ⟨fun h => by cases h; rfl, fun h => h ▸ rfl⟩
  | cons x xs ih =>
      rw [List.mapM_cons, List.forall₂_cons_left_iff, bind_eq_ok_iff]
      constructor
      · rintro ⟨y, hy, h⟩
        obtain ⟨zs, hzs, h⟩ := bind_eq_ok_iff.mp h
        cases h
        exact ⟨y, zs, hy, ih.mp hzs, rfl⟩
      · rintro ⟨y, zs, hy, hzs, rfl⟩
        exact ⟨y, hy, bind_eq_ok_iff.mpr ⟨zs, ih.mpr hzs, rfl⟩⟩

/-- A list of steps that read their items has read each of them. -/
theorem mapM_eq_ok_iff_map {γ : Type} {f : α → Except ε β} {read : α → γ} {entry : β → γ}
    (step : ∀ {x y}, f x = .ok y ↔ read x = entry y) {xs : List α} {ys : List β} :
    xs.mapM f = .ok ys ↔ xs.map read = ys.map entry := by
  rw [mapM_eq_ok_iff, ← List.forall₂_eq_eq_eq, List.forall₂_map_left_iff, List.forall₂_map_right_iff]
  simp only [step]

theorem mapM_eq_map {f : α → Except ε β} {g : α → β} {xs : List α} (h : ∀ x ∈ xs, f x = .ok (g x)) :
    xs.mapM f = .ok (xs.map g) := by
  rw [mapM_eq_ok_iff, List.forall₂_map_right_iff, List.forall₂_same]
  exact h

theorem forall_of_forall₂ {P : α → Prop} {xs : List α} {ys : List β} (h : List.Forall₂ (fun x _ => P x) xs ys)
    {x : α} (hx : x ∈ xs) : P x := by
  induction h with
  | nil => cases hx
  | cons hy _ ih =>
      rcases List.mem_cons.mp hx with rfl | hx
      · exact hy
      · exact ih hx

theorem exists_ok_of_mapM {f : α → Except ε β} {xs : List α} {ys : List β} (h : xs.mapM f = .ok ys) {x : α}
    (hx : x ∈ xs) : ∃ y, f x = .ok y :=
  forall_of_forall₂ (P := fun x => ∃ y, f x = .ok y) ((mapM_eq_ok_iff.mp h).imp fun _ y hy => ⟨y, hy⟩) hx

theorem mapM_eq_error_iff {f : α → Except ε β} {xs : List α} {e : ε} : xs.mapM f = .error e ↔
    ∃ before x after, xs = before ++ x :: after ∧ (∀ y ∈ before, ∃ b, f y = .ok b) ∧ f x = .error e := by
  induction xs with
  | nil =>
      refine iff_of_false nofun ?_
      rintro ⟨before, x, after, h, -⟩
      cases before <;> cases h
  | cons x xs ih =>
      rw [List.mapM_cons, bind_eq_error_iff]
      constructor
      · rintro (hx | ⟨b, hb, h⟩)
        · exact ⟨[], x, xs, rfl, nofun, hx⟩
        · rcases bind_eq_error_iff.mp h with h | ⟨_, _, h⟩
          · obtain ⟨before, y, after, rfl, hbefore, hy⟩ := ih.mp h
            exact ⟨x :: before, y, after, rfl, List.forall_mem_cons.mpr ⟨⟨b, hb⟩, hbefore⟩, hy⟩
          · cases h
      · rintro ⟨before, y, after, h, hbefore, hy⟩
        cases before with
        | nil =>
            cases h
            exact .inl hy
        | cons z before =>
            cases h
            obtain ⟨⟨b, hb⟩, hbefore⟩ := List.forall_mem_cons.mp hbefore
            exact .inr ⟨b, hb, bind_eq_error_iff.mpr (.inl (ih.mpr ⟨before, y, after, rfl, hbefore, hy⟩))⟩

theorem mapM_flatten (f : α → Except ε β) (xss : List (List α)) :
    (xss.mapM (List.mapM f)).map List.flatten = xss.flatten.mapM f := by
  induction xss with
  | nil => rfl
  | cons xs xss ih =>
      rw [List.mapM_cons, List.flatten_cons, List.mapM_append, ← ih]
      cases xs.mapM f with
      | error e => rfl
      | ok ys => cases xss.mapM (List.mapM f) <;> rfl

/-- A fold that adds what it reads and refuses what breaks `P`, when adding more never mends it. It succeeds when
every item can be read and `P` holds at the end. -/
theorem foldlM_eq_ok_iff {γ σ : Type} {f : σ → α → Except ε σ} (read : α → γ) (entry : β → γ) (add : σ → β → σ)
    (P : σ → Prop)
    (step : ∀ {s x s'}, P s → (f s x = .ok s' ↔ ∃ y, read x = entry y ∧ s' = add s y ∧ P s'))
    (before : ∀ {s y}, P (add s y) → P s) {xs : List α} {s s' : σ} (hs : P s) :
    xs.foldlM f s = .ok s' ↔ ∃ ys : List β, xs.map read = ys.map entry ∧ s' = ys.foldl add s ∧ P s' := by
  have start (ys : List β) (s : σ) (h : P (ys.foldl add s)) : P s := by
    induction ys generalizing s with
    | nil => exact h
    | cons y ys ih => exact before (ih _ h)
  induction xs generalizing s with
  | nil =>
      constructor
      · intro h
        cases h
        exact ⟨[], rfl, rfl, hs⟩
      · rintro ⟨ys, hy, rfl, -⟩
        cases ys with
        | nil => rfl
        | cons y ys => cases hy
  | cons x xs ih =>
      rw [List.foldlM_cons, bind_eq_ok_iff]
      constructor
      · rintro ⟨_, hx, h⟩
        obtain ⟨y, hy, rfl, hp⟩ := (step hs).mp hx
        obtain ⟨ys, hys, rfl, hp'⟩ := (ih hp).mp h
        exact ⟨y :: ys, by rw [List.map_cons, List.map_cons, hy, hys], rfl, hp'⟩
      · rintro ⟨ys, hys, rfl, hp⟩
        cases ys with
        | nil => cases hys
        | cons y ys =>
            obtain ⟨hy, hys⟩ := List.cons.inj hys
            have hp' : P (add s y) := start ys _ hp
            exact ⟨_, (step hs).mpr ⟨y, hy, rfl, hp'⟩, (ih hp').mpr ⟨ys, hys, rfl, hp⟩⟩

end Blindfold.Outcome
