import Mathlib.Data.List.Basic
import Blindfold.Csv.Reading

/-!
# Quoted fields

Between quotes every symbol stands for itself, and a quote is written twice. A text in which all fields are
written so is read back as it was, whatever the fields hold (`Csv.records_text`), and a reader hands it on as it is
when its settings say so (`Csv.Settings.read?_text`).
-/

namespace Blindfold.Csv

/-- Commas, quotes and line ends can be told apart. -/
class LawfulAlphabet (α : Type) [DecidableEq α] [Alphabet α] : Prop where
  comma_ne_quote : (Alphabet.comma : α) ≠ Alphabet.quote
  isLineEnd_comma : Reader.isLineEnd (Alphabet.comma : α) = false
  isLineEnd_quote : Reader.isLineEnd (Alphabet.quote : α) = false
  quote_not_mem_byteOrderMark : (Alphabet.quote : α) ∉ Alphabet.byteOrderMark

instance : LawfulAlphabet UInt8 where
  comma_ne_quote := by decide
  isLineEnd_comma := by decide
  isLineEnd_quote := by decide
  quote_not_mem_byteOrderMark := by decide

/-! ## Writing -/

/-- What ends a record. -/
inductive LineEnd where
  | feed
  /-- A carriage return and a line feed. -/
  | returnFeed
deriving DecidableEq, Repr

variable {α : Type} [DecidableEq α] [Alphabet α]

def LineEnd.symbols : LineEnd → List α
  | feed => [Alphabet.lineFeed]
  | returnFeed => [Alphabet.carriageReturn, Alphabet.lineFeed]

/-- A symbol as it is written between quotes. -/
def doubled (x : α) : List α := if x = Alphabet.quote then [x, x] else [x]

def quoted (field : List α) : List α := Alphabet.quote :: (field.flatMap doubled ++ [Alphabet.quote])

/-- The fields of a record, quoted and with commas between them. -/
def line (row : Record α) : List α := [Alphabet.comma].intercalate (row.map quoted)

def text (rows : List (Record α × LineEnd)) : List α := rows.flatMap fun row => line row.1 ++ row.2.symbols

theorem line_singleton (field : List α) : line [field] = quoted field := by
  rw [line, List.map_singleton, List.intercalate_singleton]

theorem line_cons_cons (field next : List α) (row : Record α) :
    line (field :: next :: row) = quoted field ++ Alphabet.comma :: line (next :: row) := by
  simp [line, List.intercalate_cons_cons]

theorem text_cons (row : Record α × LineEnd) (rows : List (Record α × LineEnd)) :
    text (row :: rows) = line row.1 ++ row.2.symbols ++ text rows :=
  List.flatMap_cons

/-- The same rows with every field changed. -/
def mapFields {β γ : Type} (f : β → γ) (rows : List (List β × LineEnd)) : List (List γ × LineEnd) :=
  rows.map (Prod.map (List.map f) id)

section Fields

variable {β γ : Type} (f : β → γ) {rows : List (List β × LineEnd)}

theorem map_fst_mapFields : (mapFields f rows).map Prod.fst = (rows.map Prod.fst).map (List.map f) := by
  rw [mapFields, List.map_map, List.map_map]
  rfl

theorem ne_nil_of_mem_mapFields (hr : ∀ row ∈ rows, row.1 ≠ []) : ∀ row ∈ mapFields f rows, row.1 ≠ [] :=
  List.forall_mem_map.mpr fun row h => mt List.map_eq_nil_iff.mp (hr row h)

end Fields

/-! ## Reading back -/

namespace Reader

variable {place : Place} {rs : List (Record α)}

theorem isLineEnd_lineFeed : isLineEnd (Alphabet.lineFeed : α) = true := by simp [isLineEnd]

theorem isLineEnd_carriageReturn : isLineEnd (Alphabet.carriageReturn : α) = true := by simp [isLineEnd]

theorem foldl_doubled (field symbols : List α) (fields : Record α) :
    (field.flatMap doubled).foldl read ⟨.quoted, symbols, fields, rs⟩ =
      ⟨.quoted, field.reverse ++ symbols, fields, rs⟩ := by
  induction field generalizing symbols with
  | nil => rfl
  | cons x field ih =>
      have hx : (doubled x).foldl read ⟨.quoted, symbols, fields, rs⟩ = ⟨.quoted, x :: symbols, fields, rs⟩ := by
        by_cases hq : x = Alphabet.quote <;> simp [doubled, read, push, hq]
      rw [List.flatMap_cons, List.foldl_append, hx, ih]
      simp

variable [LawfulAlphabet α]

theorem foldl_quoted (hp : place = .recordStart ∨ place = .fieldStart) (field : List α) (fields : Record α) :
    (quoted field).foldl read ⟨place, [], fields, rs⟩ = ⟨.afterQuote, field.reverse, fields, rs⟩ := by
  have opened : read ⟨place, [], fields, rs⟩ Alphabet.quote = ⟨.quoted, [], fields, rs⟩ := by
    rcases hp with rfl | rfl <;> simp [read, readFirst, LawfulAlphabet.isLineEnd_quote]
  rw [quoted, List.foldl_cons, opened, List.foldl_append, foldl_doubled]
  simp [read]

theorem read_comma (symbols : List α) (fields : Record α) :
    read ⟨.afterQuote, symbols, fields, rs⟩ Alphabet.comma = ⟨.fieldStart, [], symbols.reverse :: fields, rs⟩ := by
  simp [read, readPlain, endField, LawfulAlphabet.comma_ne_quote]

theorem read_lineEnd {x : α} (h : isLineEnd x = true) (symbols : List α) (fields : Record α) :
    read ⟨.afterQuote, symbols, fields, rs⟩ x =
      ⟨.recordStart, [], [], (symbols.reverse :: fields).reverse :: rs⟩ := by
  have hq : x ≠ Alphabet.quote := by
    rintro rfl
    cases LawfulAlphabet.isLineEnd_quote.symm.trans h
  have hc : x ≠ Alphabet.comma := by
    rintro rfl
    cases LawfulAlphabet.isLineEnd_comma.symm.trans h
  simp [read, readPlain, endRecord, h, hq, hc]

theorem foldl_lineEnd (e : LineEnd) (symbols : List α) (fields : Record α) :
    e.symbols.foldl read ⟨.afterQuote, symbols, fields, rs⟩ =
      ⟨.recordStart, [], [], (symbols.reverse :: fields).reverse :: rs⟩ := by
  cases e with
  | feed => exact read_lineEnd isLineEnd_lineFeed symbols fields
  | returnFeed =>
      -- The carriage return has ended the record already, and the line feed stands on a line of its own.
      rw [LineEnd.symbols, List.foldl_cons, read_lineEnd isLineEnd_carriageReturn]
      simp [read, isLineEnd_lineFeed]

theorem foldl_line {row : Record α} (hr : row ≠ []) (e : LineEnd)
    (hp : place = .recordStart ∨ place = .fieldStart) (fields : Record α) :
    (line row ++ e.symbols).foldl read ⟨place, [], fields, rs⟩ =
      ⟨.recordStart, [], [], (fields.reverse ++ row) :: rs⟩ := by
  induction row generalizing place fields with
  | nil => exact absurd rfl hr
  | cons field row ih =>
      cases row with
      | nil =>
          rw [line_singleton, List.foldl_append, foldl_quoted hp, foldl_lineEnd]
          simp
      | cons next row =>
          rw [line_cons_cons, List.append_assoc, List.foldl_append, foldl_quoted hp, List.cons_append,
            List.foldl_cons, read_comma, ih (List.cons_ne_nil _ _) (.inr rfl)]
          simp

theorem foldl_text {rows : List (Record α × LineEnd)} (hr : ∀ row ∈ rows, row.1 ≠ []) :
    (text rows).foldl read ⟨.recordStart, [], [], rs⟩ =
      ⟨.recordStart, [], [], (rows.map Prod.fst).reverse ++ rs⟩ := by
  induction rows generalizing rs with
  | nil => rfl
  | cons row rows ih =>
      rw [List.forall_mem_cons] at hr
      rw [text_cons, List.foldl_append, foldl_line hr.1 _ (.inl rfl), ih hr.2]
      simp

end Reader

theorem dropMark_cons {x : α} (h : x ∉ (Alphabet.byteOrderMark : List α)) (xs : List α) :
    dropMark (x :: xs) = x :: xs := by
  rw [dropMark]
  cases hb : (Alphabet.byteOrderMark : List α) with
  | nil => rfl
  | cons b bs =>
      rw [hb, List.mem_cons, not_or] at h
      simp [Ne.symm h.1]

theorem exists_line_eq_cons {row : Record α} (hr : row ≠ []) : ∃ rest, line row = Alphabet.quote :: rest := by
  match row, hr with
  | [field], _ => exact ⟨_, line_singleton field⟩
  | field :: next :: row, _ => exact ⟨_, line_cons_cons field next row⟩

theorem dropMark_text [LawfulAlphabet α] {rows : List (Record α × LineEnd)} (hr : ∀ row ∈ rows, row.1 ≠ []) :
    dropMark (text rows) = text rows := by
  cases rows with
  | nil => rw [text, List.flatMap_nil, dropMark, List.drop_nil, ite_self]
  | cons row rows =>
      obtain ⟨rest, he⟩ := exists_line_eq_cons (List.forall_mem_cons.mp hr).1
      rw [text_cons, he]
      exact dropMark_cons LawfulAlphabet.quote_not_mem_byteOrderMark _

/-- Records of quoted fields are read back, each by itself, if none is without a field. -/
theorem records_text [LawfulAlphabet α] {rows : List (Record α × LineEnd)} (hr : ∀ row ∈ rows, row.1 ≠ []) :
    records (text rows) = rows.map Prod.fst := by
  rw [records, dropMark_text hr, Reader.start, Reader.foldl_text hr, Reader.finish]
  simp

/-! ## Settings -/

theorem mapM_map_of_decode {β γ : Type} {encode : β → γ} {decode? : γ → Option β}
    (hd : ∀ x, decode? (encode x) = some x) (xs : List β) : (xs.map encode).mapM decode? = some xs := by
  have hp : decode? ∘ encode = fun x => pure (id x) := funext hd
  rw [List.mapM_map, hp, List.mapM_pure, List.map_id]
  rfl

namespace Settings

/-- Without a header, with records of any length and with their blanks, all fields are handed on as they are. -/
theorem read?_eq (decode? : List α → Option (List Char)) (xs : List α) :
    read? { hasHeader := false, isFlexible := true, trims := false } decode? xs =
      (records xs).mapM (·.mapM decode?) := by
  have hfield : (fun field => (decode? field).map (trimmed ⟨false, true, false⟩)) = decode? :=
    funext fun field => congrFun Option.map_id (decode? field)
  rw [read?, hfield]
  rfl

theorem read?_text [LawfulAlphabet α] {encode : List Char → List α} {decode? : List α → Option (List Char)}
    (hd : ∀ cs, decode? (encode cs) = some cs) {rows : List (Record Char × LineEnd)} (hr : ∀ row ∈ rows, row.1 ≠ []) :
    read? { hasHeader := false, isFlexible := true, trims := false } decode? (text (mapFields encode rows)) =
      some (rows.map Prod.fst) := by
  rw [read?_eq, records_text (ne_nil_of_mem_mapFields encode hr), map_fst_mapFields]
  exact mapM_map_of_decode (mapM_map_of_decode hd) _

end Settings
end Blindfold.Csv
