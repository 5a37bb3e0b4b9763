import Candlewick.Csv.Reader
import Candlewick.Csv.Writer

namespace Candlewick.Csv

variable {field tail rest : List Char} {later : List (List Char)}

/-- Outside of quotes a text ends the field that the reader is in. Some fields and a rest of the text
    are read behind it. -/
structure EndsField (tail : List Char) (later : List (List Char)) (rest : List Char) : Prop where
  fields : ∀ mode, mode ≠ .quoted → (record mode tail).fields = [] :: later
  rest : ∀ mode, mode ≠ .quoted → (record mode tail).rest = rest

/-- A comma ends a field, and the fields behind it are read from the start of a field. -/
theorem endsField_comma (cs : List Char) :
    EndsField (',' :: cs) (record .fieldStart cs).fields (record .fieldStart cs).rest := by
  constructor <;>
  · intro mode hmode
    cases mode with
    | quoted => exact absurd rfl hmode
    | fieldStart | unquoted | quoteSeen => rfl

/-- A line feed ends a field and the record with it. -/
theorem endsField_lineFeed (cs : List Char) : EndsField ('\n' :: cs) [] cs := by
  constructor <;>
  · intro mode hmode
    cases mode with
    | quoted => exact absurd rfl hmode
    | fieldStart | unquoted | quoteSeen => rfl

/-- A character that belongs to a field stands in front of what is read of the field behind it. -/
theorem record_cons_of_belongsToField {mode mode' : Mode} {c : Char} {cs : List Char}
    (heffect : effect mode c = .belongsToField mode')
    (hread : (record mode' cs).fields = field :: later ∧ (record mode' cs).rest = rest) :
    (record mode (c :: cs)).fields = (c :: field) :: later ∧ (record mode (c :: cs)).rest = rest := by
  rw [record, heffect]
  exact ⟨congrArg (withFirst c) hread.1, hread.2⟩

/-- A character that is not special belongs to a field without quotes. -/
theorem plainEffect_of_not_isSpecial {c : Char} (hplain : isSpecial c = false) :
    plainEffect c = .belongsToField .unquoted := by
  simp only [isSpecial, Bool.or_eq_false_iff, beq_eq_false_iff_ne] at hplain
  obtain ⟨⟨⟨hcomma, -⟩, hline⟩, hreturn⟩ := hplain
  have hend : isRecordEnd c = false := by simp [isRecordEnd, hline, hreturn]
  rw [plainEffect, if_neg hcomma, if_neg (by simp [hend])]

/-- A field that begins with a plain character is one without quotes. -/
theorem effect_fieldStart_of_not_isSpecial {c : Char} (hplain : isSpecial c = false) :
    effect .fieldStart c = .belongsToField .unquoted := by
  have hquote : c ≠ '"' := by
    rintro rfl
    cases hplain
  rw [effect, if_neg hquote, plainEffect_of_not_isSpecial hplain]

/-- A field of plain characters is read up to where it ends, as it is written. -/
theorem EndsField.unquoted (hends : EndsField tail later rest)
    (hplain : ∀ c ∈ field, isSpecial c = false) :
    (record .unquoted (field ++ tail)).fields = field :: later ∧
      (record .unquoted (field ++ tail)).rest = rest := by
  induction field with
  | nil => exact ⟨hends.fields .unquoted (by simp), hends.rest .unquoted (by simp)⟩
  | cons c cs ih =>
    obtain ⟨hc, hcs⟩ := List.forall_mem_cons.1 hplain
    exact record_cons_of_belongsToField (plainEffect_of_not_isSpecial hc) (ih hcs)

/-- Within quotes only a quote that stands alone ends the field. -/
theorem EndsField.quoted (hends : EndsField tail later rest) (field : List Char) :
    let written := field.flatMap fun c => if c = '"' then ['"', '"'] else [c]
    (record .quoted (written ++ '"' :: tail)).fields = field :: later ∧
      (record .quoted (written ++ '"' :: tail)).rest = rest := by
  induction field with
  | nil => exact ⟨hends.fields .quoteSeen (by simp), hends.rest .quoteSeen (by simp)⟩
  | cons c cs ih =>
    by_cases hquote : c = '"'
    · subst hquote
      have hdoubled : effect .quoteSeen '"' = .belongsToField .quoted := rfl
      have hread := record_cons_of_belongsToField hdoubled ih
      exact hread
    · simp only [List.flatMap_cons, if_neg hquote, List.cons_append]
      exact record_cons_of_belongsToField (if_neg hquote) ih

/-- A written field is read back where a text behind it ends a field. -/
theorem EndsField.writtenField (hends : EndsField tail later rest) (field : List Char) :
    (record .fieldStart (writtenField field ++ tail)).fields = field :: later ∧
      (record .fieldStart (writtenField field ++ tail)).rest = rest := by
  unfold Csv.writtenField
  split
  · rw [quotedField, List.cons_append, List.cons_append, List.append_assoc]
    exact hends.quoted field
  · rename_i hany
    have hplain : ∀ c ∈ field, isSpecial c = false := by simpa using hany
    cases field with
    | nil => exact ⟨hends.fields .fieldStart (by simp), hends.rest .fieldStart (by simp)⟩
    | cons c cs =>
      obtain ⟨hc, hcs⟩ := List.forall_mem_cons.1 hplain
      exact record_cons_of_belongsToField (effect_fieldStart_of_not_isSpecial hc)
        (hends.unquoted hcs)

/-- A written record is read back, and what stands behind it is left. -/
theorem record_writtenRecord {fields : List (List Char)} (hfields : fields ≠ [])
    (rest : List Char) :
    (record .fieldStart (writtenRecord fields ++ rest)).fields = fields ∧
      (record .fieldStart (writtenRecord fields ++ rest)).rest = rest := by
  induction fields with
  | nil => exact absurd rfl hfields
  | cons field more ih =>
    cases more with
    | nil =>
      rw [writtenRecord, List.map_singleton, List.intercalate_singleton, List.append_assoc]
      exact (endsField_lineFeed rest).writtenField field
    | cons next more =>
      obtain ⟨hmore, hrest⟩ := ih (List.cons_ne_nil _ _)
      have hwritten : writtenRecord (field :: next :: more) ++ rest =
          writtenField field ++ ',' :: (writtenRecord (next :: more) ++ rest) := by
        simp [writtenRecord, List.intercalate_cons_cons]
      have hread := (endsField_comma (writtenRecord (next :: more) ++ rest)).writtenField field
      rwa [← hwritten, hmore, hrest] at hread

/-- What is written for a field does not begin like the end of a record. -/
theorem isRecordEnd_head?_writtenField {c : Char} (hhead : (writtenField field).head? = some c) :
    isRecordEnd c = false := by
  unfold writtenField at hhead
  split at hhead
  · cases hhead
    rfl
  · rename_i hany
    have hmem : c ∈ field := List.mem_of_mem_head? hhead
    have hplain : isSpecial c = false := by
      have hall : ∀ c ∈ field, isSpecial c = false := by simpa using hany
      exact hall c hmem
    simp only [isSpecial, Bool.or_eq_false_iff] at hplain
    simp [isRecordEnd, hplain.1.2, hplain.2]

/-- So a record of several fields is no blank line, even if all its fields are empty. -/
theorem exists_writtenRecord_eq_cons {fields : List (List Char)} (hlength : 2 ≤ fields.length) :
    ∃ c cs, writtenRecord fields = c :: cs ∧ isRecordEnd c = false := by
  match fields, hlength with
  | field :: next :: more, _ =>
    have hwritten : writtenRecord (field :: next :: more) =
        writtenField field ++ ',' :: writtenRecord (next :: more) := by
      simp [writtenRecord, List.intercalate_cons_cons]
    cases hfield : writtenField field with
    | nil => exact ⟨',', writtenRecord (next :: more), by rw [hwritten, hfield]; rfl, rfl⟩
    | cons c cs =>
      refine ⟨c, cs ++ ',' :: writtenRecord (next :: more), by rw [hwritten, hfield]; rfl, ?_⟩
      exact isRecordEnd_head?_writtenField (by rw [hfield]; rfl)

/-- A written record of several fields is the next one that is read, if the records in front of it
    have as many fields. -/
theorem exists_recordsFrom_writtenRecord {fields : List (List Char)} (hlength : 2 ≤ fields.length)
    {expected : Option Nat} (hexpected : expected.getD fields.length = fields.length)
    (start : Location) (index : Nat) (rest : List Char) :
    ∃ finish, recordsFrom start index expected (writtenRecord fields ++ rest) =
      .ok (fields.map String.ofList) :: recordsFrom finish (index + 1) (some fields.length) rest := by
  obtain ⟨c, cs, hwritten, hend⟩ := exists_writtenRecord_eq_cons hlength
  have hne : fields ≠ [] := by
    rintro rfl
    cases hlength
  obtain ⟨hfields, hrest⟩ := record_writtenRecord hne rest
  rw [hwritten, List.cons_append] at hfields hrest ⊢
  have hdrop : (c :: (cs ++ rest)).dropWhile isRecordEnd = c :: (cs ++ rest) :=
    List.dropWhile_cons_of_neg (by simp [hend])
  rw [recordsFrom]
  split
  · rename_i hnil
    cases hdrop.symm.trans hnil
  · rename_i hcons
    cases hdrop.symm.trans hcons
    simp only [hfields, hrest, if_pos hexpected]
    exact ⟨_, rfl⟩

/-- Written records of one width are read back. -/
theorem recordsFrom_writtenRecords {rows : List (List String)} {width : Nat} (hwidth : 2 ≤ width)
    (hrows : ∀ row ∈ rows, row.length = width) {expected : Option Nat}
    (hexpected : expected.getD width = width) (start : Location) (index : Nat) :
    recordsFrom start index expected
        (rows.flatMap fun row => writtenRecord (row.map String.toList)) = rows.map .ok := by
  induction rows generalizing start index expected with
  | nil => rw [List.flatMap_nil, recordsFrom]; rfl
  | cons row more ih =>
    obtain ⟨hrow, hmore⟩ := List.forall_mem_cons.1 hrows
    have hlength : (row.map String.toList).length = width := by rw [List.length_map, hrow]
    obtain ⟨finish, hfirst⟩ := exists_recordsFrom_writtenRecord (hlength ▸ hwidth)
      (hlength.symm ▸ hexpected) start index
      (more.flatMap fun row => writtenRecord (row.map String.toList))
    rw [List.flatMap_cons, hfirst, ih hmore (by rw [hlength]; rfl)]
    simp

/-- What is written of records of one width is read back as the same records. Only a byte order mark
    in front of the first one would be lost. -/
theorem records_write {rows : List (List String)} {width : Nat} (hwidth : 2 ≤ width)
    (hrows : ∀ row ∈ rows, row.length = width)
    (hmark : (write rows).toList.head? ≠ some '\ufeff') : records (write rows) = rows.map .ok := by
  have hread := @recordsFrom_writtenRecords rows width hwidth hrows none rfl ⟨1, 0⟩ 0
  unfold records
  split
  · rename_i hcs
    rw [hcs] at hmark
    exact absurd rfl hmark
  · rw [write, String.toList_ofList]
    exact hread

end Candlewick.Csv
