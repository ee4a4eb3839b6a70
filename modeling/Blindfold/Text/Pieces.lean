/-!
# Cutting a list at marked elements

`pieces p` cuts a list at every element that satisfies `p`. Words, lines and bracketed groups are all
read off such cuts.
-/

namespace Blindfold.Text

/-- Puts `x` in front of the first list, or starts one. -/
def consFirst {α : Type} (x : α) : List (List α) → List (List α)
  | [] => [[x]]
  | xs :: rest => (x :: xs) :: rest

/-- The stretches between the elements that satisfy `p`, those elements left out. -/
def pieces {α : Type} (p : α → Bool) : List α → List (List α)
  | [] => [[]]
  | x :: rest => if p x then [] :: pieces p rest else consFirst x (pieces p rest)

/-- A line without the carriage return at its end, if there is one. -/
def withoutReturn (line : List Char) : List Char :=
  if line.getLast? = some '\r' then line.dropLast else line

/-- The lines of a text. Each ends at a line feed, which may have a carriage return before it; what stands after the
last line feed is a line unless it is empty. -/
def lines (cs : List Char) : List (List Char) :=
  let stretches := pieces (· == '\n') cs
  stretches.dropLast.map withoutReturn ++ stretches.getLast?.toList.filter (! ·.isEmpty)

@[simp]
theorem flatten_consFirst {α : Type} (x : α) (xss : List (List α)) :
    (consFirst x xss).flatten = x :: xss.flatten := by
  cases xss <;> rfl

end Blindfold.Text
