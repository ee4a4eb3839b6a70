import Mathlib.Data.List.Basic
import Blindfold.Cli.Run
import Blindfold.Proofs.Quoting

/-!
# Sheets in files

In UTF-8 a quote is one byte, and no other character has this byte in it. Quoting the cells of a sheet is therefore
the same in characters and in bytes, and a sheet whose cells are all quoted is read from its file as it was written:
`Grid.load_written`.
-/

namespace Blindfold

/-! ## Bytes -/

namespace Text

def utf8 (cs : List Char) : List UInt8 := cs.flatMap String.utf8EncodeChar

@[simp]
theorem utf8_cons (c : Char) (cs : List Char) : utf8 (c :: cs) = String.utf8EncodeChar c ++ utf8 cs := rfl

@[simp]
theorem utf8_append (cs ds : List Char) : utf8 (cs ++ ds) = utf8 cs ++ utf8 ds := List.flatMap_append

/-- A byte below 128 is a character by itself. -/
theorem toNat_eq_of_mem {c : Char} {b : UInt8} (h : b ∈ String.utf8EncodeChar c) (hb : b.toNat < 128) :
    c.toNat = b.toNat := by
  have hn : c.toNat = c.val.toNat := rfl
  unfold String.utf8EncodeChar at h
  dsimp only at h
  split_ifs at h
  · obtain rfl := List.mem_singleton.mp h
    simp only [UInt8.toNat_ofNat']
    omega
  -- Each byte of a longer character has 128 added to it or more.
  all_goals
    simp only [List.mem_cons, List.not_mem_nil, or_false] at h
    rcases h with rfl | rfl | rfl | rfl
  all_goals
    simp only [UInt8.toNat_ofNat'] at hb
    omega

theorem toUTF8_ofList (cs : List Char) : (String.ofList cs).toUTF8 = ⟨(utf8 cs).toArray⟩ := by
  rw [String.toUTF8_eq_toByteArray, String.toByteArray_ofList]
  exact ByteArray.ext List.data_toByteArray

end Text

/-! ## Quoting in characters and in bytes -/

namespace Csv

open Text (utf8)

theorem utf8_doubled (c : Char) : utf8 (doubled c) = (String.utf8EncodeChar c).flatMap doubled := by
  by_cases hc : c = '"'
  · subst hc
    decide
  · have hb : ∀ b ∈ String.utf8EncodeChar c, doubled b = [b] := by
      intro b hb
      refine if_neg ?_
      rintro rfl
      exact hc (Char.toNat_inj.mp (Text.toNat_eq_of_mem hb (by decide)))
    have hq : doubled c = [c] := if_neg hc
    rw [hq, List.flatMap_congr hb, List.flatMap_singleton']
    exact List.append_nil _

theorem utf8_quoted (field : List Char) : utf8 (quoted field) = quoted (utf8 field) := by
  have h : utf8 (field.flatMap doubled) = (utf8 field).flatMap doubled := by
    rw [utf8, utf8, List.flatMap_assoc, List.flatMap_assoc]
    exact List.flatMap_congr fun c _ => utf8_doubled c
  rw [quoted, Text.utf8_cons, Text.utf8_append, h]
  rfl

theorem utf8_line (row : Record Char) : utf8 (line row) = line (row.map utf8) := by
  induction row with
  | nil => rfl
  | cons field row ih =>
      cases row with
      | nil => rw [List.map_singleton, line_singleton, line_singleton, utf8_quoted]
      | cons next row =>
          rw [List.map_cons, List.map_cons, line_cons_cons, line_cons_cons, Text.utf8_append, Text.utf8_cons, ih,
            utf8_quoted]
          rfl

theorem utf8_symbols (e : LineEnd) : utf8 e.symbols = e.symbols := by cases e <;> rfl

theorem utf8_text (rows : List (Record Char × LineEnd)) : utf8 (text rows) = text (mapFields utf8 rows) := by
  induction rows with
  | nil => rfl
  | cons row rows ih =>
      rw [mapFields, List.map_cons, text_cons, text_cons, Text.utf8_append, Text.utf8_append, utf8_line, utf8_symbols,
        ih]
      rfl

end Csv

/-! ## Sheets -/

theorem Outcome.adapt_pure {m : Type → Type} [Monad m] [LawfulMonad m] {α ε ε' : Type} (f : ε → ε') (a : α) :
    ExceptT.adapt f (pure a : ExceptT ε m α) = pure a := by
  have h : Except.mapError f <$> (pure (.ok a) : m (Except ε α)) = pure (.ok a) := map_pure _ _
  exact h

namespace Grid

open Text (utf8)

variable {rows : List (List String × Csv.LineEnd)}

/-- A sheet in which every cell is quoted, each row with its line end. -/
def written (rows : List (List String × Csv.LineEnd)) : String :=
  String.ofList (Csv.text (Csv.mapFields String.toList rows))

theorem decodeField?_utf8 (cs : List Char) : decodeField? (utf8 cs) = some cs := by
  rw [decodeField?, ← Text.toUTF8_ofList, String.toUTF8_eq_toByteArray, String.fromUTF8?,
    dif_pos (String.ofList cs).isValidUTF8]
  exact congrArg some String.toList_ofList

theorem decode?_written (hr : ∀ row ∈ rows, row.1 ≠ []) :
    decode? (written rows).toUTF8 = some (rows.map Prod.fst) := by
  have hcells (row : List String) : (row.map String.toList).map String.ofList = row := by
    simp [Function.comp_def]
  rw [decode?, written, Text.toUTF8_ofList, List.toList_toArray, Csv.utf8_text, csvSettings,
    Csv.Settings.read?_text decodeField?_utf8 (Csv.ne_nil_of_mem_mapFields String.toList hr), Option.map_some,
    Csv.map_fst_mapFields, List.map_map]
  exact congrArg some ((List.map_congr_left fun row _ => hcells row).trans (List.map_id _))

variable {m : Type → Type} [Monad m] [LawfulMonad m]

/-- A sheet with all cells quoted is read from its file row by row and cell by cell as it was written, and these rows
are what is checked. -/
theorem load_written (host : Cli.Host m) {path : String} (hf : host.files path = pure (.ok (written rows).toUTF8))
    (hr : ∀ row ∈ rows, row.1 ≠ []) :
    load host.files path = pure (rows.map Prod.fst) ∧
    ∀ settings kind buffer headers emptyBufferGroups ignoreEmpty,
      Cli.runCommand host settings (.check path kind buffer headers emptyBufferGroups ignoreEmpty) = do
        let lettering ← (settings.lettering host.files).adapt .lettering
        let report ← Cli.orFail (.sheet path) (Layout.validate {
          kind, buffer := settings.buffer kind buffer, hasHeaders := headers
          keepsBufferGroups := emptyBufferGroups } lettering host.workers (rows.map Prod.fst))
        return report.listing ignoreEmpty := by
  have hl : load host.files path = pure (rows.map Prod.fst) := by
    rw [load, hf, liftM_pure, pure_bind]
    dsimp only
    rw [decode?_written hr]
  refine ⟨hl, ?_⟩
  intros
  simp only [Cli.runCommand, hl, Outcome.adapt_pure, pure_bind]

theorem load_written_ragged :
    written [(["[R, U]", "", " x\"\r\n"], .returnFeed), (["é"], .feed)] =
      "\"[R, U]\",\"\",\" x\"\"\r\n\"\r\n\"é\"\n" ∧
    load (m := Id) (fun _ => .ok "\"[R, U]\",\"\",\" x\"\"\r\n\"\r\n\"é\"\n".toUTF8) "sheet.csv" =
      pure [["[R, U]", "", " x\"\r\n"], ["é"]] := by
  have hw : written [(["[R, U]", "", " x\"\r\n"], .returnFeed), (["é"], .feed)] =
      "\"[R, U]\",\"\",\" x\"\"\r\n\"\r\n\"é\"\n" := by decide
  let host : Cli.Host Id := ⟨fun _ => .ok "\"[R, U]\",\"\",\" x\"\"\r\n\"\r\n\"é\"\n".toUTF8, 0, 1⟩
  have hf : host.files "sheet.csv" =
      pure (.ok (written [(["[R, U]", "", " x\"\r\n"], .returnFeed), (["é"], .feed)]).toUTF8) := by
    rw [hw]
    rfl
  exact ⟨hw, (load_written host hf (by decide)).1⟩

end Grid
end Blindfold
