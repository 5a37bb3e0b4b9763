import Candlewick.Json
import Candlewick.Proofs.Decimal.Reading

namespace Candlewick.Json

open Decimal (inNumber ofText?)

/-- The value of a hexadecimal digit. -/
def hexDigit (c : Char) : Nat :=
  if c.isDigit then c.toNat - '0'.toNat else c.toNat - 'a'.toNat + 10

/-- The number that hexadecimal digits stand for. -/
def hexadecimal (digits : List Char) : Nat :=
  digits.foldl (fun value c => 16 * value + hexDigit c) 0

/-- The character that a letter behind a backslash stands for. -/
def unescaped : Char → Char
  | 'b' => '\x08'
  | 't' => '\t'
  | 'n' => '\n'
  | 'f' => '\x0c'
  | 'r' => '\r'
  | c => c

/-- The characters up to the closing quote, and what follows it. -/
def readQuoted : List Char → Option (List Char × List Char)
  | '"' :: rest => some ([], rest)
  | '\\' :: 'u' :: a :: b :: c :: d :: rest =>
    (readQuoted rest).map fun (content, rest) =>
      (Char.ofNat (hexadecimal [a, b, c, d]) :: content, rest)
  | '\\' :: c :: rest => (readQuoted rest).map fun (content, rest) => (unescaped c :: content, rest)
  | c :: rest => (readQuoted rest).map fun (content, rest) => (c :: content, rest)
  | [] => none

/-- Items with commas between them, up to the closing bracket. -/
def readItems {α : Type} (item : List Char → Option (α × List Char)) (closing : Char) :
    Nat → List Char → Option (List α × List Char)
  | 0, _ => none
  | fuel + 1, cs => do
    let (first, rest) ← item cs
    match rest with
    | c :: rest =>
      if c = closing then
        some ([first], rest)
      else if c = ',' then
        (readItems item closing fuel rest).map fun (others, rest) => (first :: others, rest)
      else
        none
    | [] => none

/-- What stands between brackets: nothing, or items. -/
def readEnclosed {α : Type} (item : List Char → Option (α × List Char)) (closing : Char)
    (cs : List Char) : Option (List α × List Char) :=
  if cs.head? = some closing then some ([], cs.tail) else readItems item closing cs.length cs

/-- A name in quotes, a colon and a value. -/
def readMember {α : Type} (value : List Char → Option (α × List Char)) :
    List Char → Option ((String × α) × List Char)
  | '"' :: rest => do
    let (name, rest) ← readQuoted rest
    match rest with
    | ':' :: rest => (value rest).map fun (value, rest) => ((String.ofList name, value), rest)
    | _ => none
  | _ => none

/-- A document at the front, and what follows it. Every number is read as a float. -/
def readFront : Nat → List Char → Option (Json × List Char)
  | 0, _ => none
  | fuel + 1, cs =>
    match cs with
    | 'n' :: 'u' :: 'l' :: 'l' :: rest => some (null, rest)
    | 't' :: 'r' :: 'u' :: 'e' :: rest => some (bool true, rest)
    | 'f' :: 'a' :: 'l' :: 's' :: 'e' :: rest => some (bool false, rest)
    | '"' :: rest =>
      (readQuoted rest).map fun (content, rest) => (text (String.ofList content), rest)
    | '[' :: rest =>
      (readEnclosed (readFront fuel) ']' rest).map fun (items, rest) => (array items, rest)
    | '\x7b' :: rest =>
      (readEnclosed (readMember (readFront fuel)) '\x7d' rest).map fun (members, rest) =>
        (object members, rest)
    | cs =>
      let (word, rest) := cs.span inNumber
      (ofText? word).map fun value => (float value, rest)

/-- The document of a text. -/
def read? (s : String) : Option Json :=
  match readFront s.toList.length s.toList with
  | some (document, []) => some document
  | _ => none

/-- The documents that are written without loss: all their numbers are finite floats. -/
inductive Readable : Json → Prop where
  | null : Readable null
  | bool (value : Bool) : Readable (bool value)
  | float {value : Float} (hvalue : value.isFinite = true) : Readable (float value)
  | text (content : String) : Readable (text content)
  | array {items : List Json} (hitems : ∀ item ∈ items, Readable item) : Readable (array items)
  | object {members : List (String × Json)} (hmembers : ∀ member ∈ members, Readable member.2) :
    Readable (object members)

attribute [simp] Readable.null Readable.bool Readable.text

/-- A member as it is written. -/
def writtenMember (member : String × Json) : List Char :=
  '"' :: (member.1.toList.flatMap escaped ++ '"' :: ':' :: (compact member.2).toList)

theorem compactItems_eq (items : List Json) : compactItems items = items.map compact := by
  induction items with
  | nil => rfl
  | cons item rest ih => rw [compactItems, ih, List.map_cons]

theorem toList_compactMembers (members : List (String × Json)) :
    (compactMembers members).map String.toList = members.map writtenMember := by
  induction members with
  | nil => rfl
  | cons member rest ih =>
    obtain ⟨name, value⟩ := member
    rw [compactMembers, List.map_cons, List.map_cons, ih]
    simp [compactMember, quoted, writtenMember]

theorem toList_compact_float {value : Float} (hvalue : value.isFinite = true) :
    (compact (float value)).toList = (numbers.write value).toList := by
  rw [compact, floatText, if_pos hvalue]

theorem toList_compact_text (content : String) :
    (compact (text content)).toList = '"' :: (content.toList.flatMap escaped ++ ['"']) := by
  simp [compact, quoted]

theorem toList_compact_array (items : List Json) :
    (compact (array items)).toList =
      '[' :: ([','].intercalate (items.map fun item => (compact item).toList) ++ [']']) := by
  simp [compact, enclosed, compactItems_eq, Function.comp_def]

theorem toList_compact_object (members : List (String × Json)) :
    (compact (object members)).toList =
      '\x7b' :: ([','].intercalate (members.map writtenMember) ++ ['\x7d']) := by
  simp [compact, enclosed, toList_compactMembers]

/-- A hexadecimal digit is read back as the number that it was written for. -/
theorem hexDigit_digitChar {n : Nat} (hn : n < 16) : hexDigit (Nat.digitChar n) = n := by
  have hall : ∀ n < 16, hexDigit (Nat.digitChar n) = n := by decide
  exact hall n hn

/-- A control character is found from its two hexadecimal digits. -/
theorem hexadecimal_controlEscape {c : Char} (hc : c.toNat < 0x20) :
    Char.ofNat (hexadecimal
      ['0', '0', Nat.digitChar (c.toNat / 16), Nat.digitChar (c.toNat % 16)]) = c := by
  have hvalue : hexadecimal
      ['0', '0', Nat.digitChar (c.toNat / 16), Nat.digitChar (c.toNat % 16)] = c.toNat := by
    simp only [hexadecimal, List.foldl_cons, List.foldl_nil,
      hexDigit_digitChar (show c.toNat / 16 < 16 by omega),
      hexDigit_digitChar (show c.toNat % 16 < 16 by omega)]
    have hzero : hexDigit '0' = 0 := rfl
    omega
  rw [hvalue, Char.ofNat_toNat]

/-- A written character is read as itself. -/
theorem readQuoted_escaped (c : Char) (rest : List Char) :
    readQuoted (escaped c ++ rest) =
      (readQuoted rest).map fun (content, rest) => (c :: content, rest) := by
  unfold escaped
  split
  case h_8 hquote hbackslash _ _ _ _ _ =>
    split
    · rename_i hcontrol
      simp only [controlEscape, List.cons_append, List.nil_append, readQuoted,
        hexadecimal_controlEscape hcontrol]
    · rw [List.singleton_append, readQuoted]
      · exact hquote
      · exact fun _ _ _ _ _ h => absurd h hbackslash
      · exact fun _ _ h => absurd h hbackslash
  all_goals simp [readQuoted, unescaped]

/-- A text is read up to its closing quote. -/
theorem readQuoted_quoted (cs rest : List Char) :
    readQuoted (cs.flatMap escaped ++ '"' :: rest) = some (cs, rest) := by
  induction cs with
  | nil => simp [readQuoted]
  | cons c cs ih =>
    rw [List.flatMap_cons, List.append_assoc, readQuoted_escaped, ih]
    rfl

section Items

variable {α : Type} {item : List Char → Option (α × List Char)} {closing : Char}
  {written : α → List Char}

/-- A reader of items stops at a comma and at the closing bracket. -/
def ReadsItem (item : List Char → Option (α × List Char)) (closing : Char)
    (written : α → List Char) (a : α) : Prop :=
  ∀ c rest, c = ',' ∨ c = closing → item (written a ++ c :: rest) = some (a, c :: rest)

/-- There is at most one text more than there are characters, so the length of a text is enough
    fuel for its items. -/
theorem length_le_length_intercalate (texts : List (List Char)) :
    texts.length ≤ ([','].intercalate texts).length + 1 := by
  induction texts with
  | nil => exact Nat.zero_le _
  | cons first rest ih =>
    cases rest with
    | nil => simp
    | cons second rest =>
      rw [List.intercalate_cons_cons]
      simp only [List.length_append, List.length_cons, List.length_nil] at ih ⊢
      omega

/-- No item is longer than the text that it is a part of. -/
theorem length_le_of_mem_intercalate {texts : List (List Char)} {part : List Char}
    (hmem : part ∈ texts) : part.length ≤ ([','].intercalate texts).length := by
  induction texts with
  | nil => cases hmem
  | cons first rest ih =>
    cases rest with
    | nil => simp [List.mem_singleton.1 hmem]
    | cons second rest =>
      rw [List.intercalate_cons_cons]
      simp only [List.length_append, List.length_cons, List.length_nil]
      rcases List.mem_cons.1 hmem with rfl | hmem
      · omega
      · have hlength := ih hmem
        omega

/-- Items with commas between them are read back one by one, up to the closing bracket. -/
theorem readItems_intercalate {items : List α} (hne : items ≠ []) (hclosing : closing ≠ ',')
    (hitems : ∀ a ∈ items, ReadsItem item closing written a) {fuel : Nat}
    (hfuel : items.length ≤ fuel) (rest : List Char) :
    readItems item closing fuel ([','].intercalate (items.map written) ++ closing :: rest) =
      some (items, rest) := by
  induction items generalizing fuel with
  | nil => exact absurd rfl hne
  | cons first others ih =>
    obtain ⟨hfirst, hothers⟩ := List.forall_mem_cons.1 hitems
    obtain ⟨fuel, rfl⟩ : ∃ more, fuel = more + 1 :=
      Nat.exists_eq_succ_of_ne_zero (by rintro rfl; simp at hfuel)
    cases others with
    | nil => simp [readItems, hfirst closing rest (.inr rfl)]
    | cons second others =>
      have hread := ih (List.cons_ne_nil _ _) hothers (Nat.le_of_succ_le_succ hfuel)
      rw [List.map_cons, List.map_cons, List.intercalate_cons_cons, List.append_assoc,
        List.append_assoc, List.singleton_append]
      rw [List.map_cons] at hread
      simp [readItems, hfirst ',' _ (.inl rfl), hclosing.symm, hread]

/-- What is written between brackets is read back. -/
theorem readEnclosed_intercalate {items : List α} (hclosing : closing ≠ ',')
    (hhead : ∀ a ∈ items, ∃ c cs, written a = c :: cs ∧ c ≠ closing)
    (hitems : ∀ a ∈ items, ReadsItem item closing written a) (rest : List Char) :
    readEnclosed item closing ([','].intercalate (items.map written) ++ closing :: rest) =
      some (items, rest) := by
  unfold readEnclosed
  cases items with
  | nil => simp
  | cons first others =>
    obtain ⟨c, cs, hfirst, hc⟩ := hhead first List.mem_cons_self
    have hstart : ([','].intercalate ((first :: others).map written) ++ closing :: rest).head? =
        some c := by
      cases others with
      | nil => simp [hfirst]
      | cons second others =>
        rw [List.map_cons, List.map_cons, List.intercalate_cons_cons, hfirst]
        rfl
    rw [hstart, if_neg (fun h => hc (Option.some.inj h))]
    refine readItems_intercalate (List.cons_ne_nil _ _) hclosing hitems ?_ rest
    have hlength := length_le_length_intercalate ((first :: others).map written)
    simp only [List.length_map, List.length_append, List.length_cons] at hlength ⊢
    omega

end Items

/-- A number begins with a character of numbers. -/
theorem exists_write_eq_cons {value : Float} (hvalue : value.isFinite = true) :
    ∃ c cs, (numbers.write value).toList = c :: cs ∧ inNumber c = true := by
  have hread := Decimal.ofText?_write numbers hvalue
  have hword := Decimal.inNumber_of_mem_write numbers hvalue
  cases hcs : (numbers.write value).toList with
  | nil => rw [hcs] at hread; cases hread
  | cons c cs => exact ⟨c, cs, rfl, hword c (hcs ▸ List.mem_cons_self)⟩

/-- A document begins with a character that does not close an array. -/
theorem exists_compact_eq_cons {document : Json} (hdocument : Readable document) :
    ∃ c cs, (compact document).toList = c :: cs ∧ c ≠ ']' := by
  cases hdocument with
  | null => exact ⟨_, _, rfl, by decide⟩
  | bool value => cases value <;> exact ⟨_, _, rfl, by decide⟩
  | float hvalue =>
    obtain ⟨c, cs, hcs, hnumber⟩ := exists_write_eq_cons hvalue
    exact ⟨c, cs, (toList_compact_float hvalue).trans hcs, by rintro rfl; cases hnumber⟩
  | text content => exact ⟨_, _, toList_compact_text content, by decide⟩
  | array hitems => exact ⟨_, _, toList_compact_array _, by decide⟩
  | object hmembers => exact ⟨_, _, toList_compact_object _, by decide⟩

/-- A number is read up to its end. -/
theorem readFront_float {value : Float} (hvalue : value.isFinite = true) (fuel : Nat)
    {rest : List Char} (hrest : ∀ c ∈ rest.head?, inNumber c = false) :
    readFront (fuel + 1) ((compact (float value)).toList ++ rest) = some (float value, rest) := by
  obtain ⟨c, cs, hcs, hnumber⟩ := exists_write_eq_cons hvalue
  have hread := Decimal.ofText?_write numbers hvalue
  have hspan := Decimal.span_append (Decimal.inNumber_of_mem_write numbers hvalue) hrest
  rw [hcs] at hread hspan
  rw [toList_compact_float hvalue, hcs, readFront]
  · rw [hspan]
    simp only [hread, Option.map_some]
  -- no other document begins as a number does
  all_goals
    intro rest' hstart
    obtain rfl := (List.cons.inj hstart).1
    cases hnumber

/-- A member is read up to its end. -/
theorem readsItem_member {value : List Char → Option (Json × List Char)} {member : String × Json}
    {closing : Char} (hvalue : ReadsItem value closing (fun j => (compact j).toList) member.2) :
    ReadsItem (readMember value) closing writtenMember member := by
  intro c rest hc
  have hread := hvalue c rest hc
  simp only at hread
  simp only [writtenMember, List.cons_append, List.append_assoc, readMember, readQuoted_quoted,
    Option.bind_eq_bind, Option.bind_some, hread, Option.map_some, String.ofList_toList]

/-- What ends an item is no part of a number. -/
theorem inNumber_eq_false_of_separator {c closing : Char} (hclosing : inNumber closing = false)
    (hc : c = ',' ∨ c = closing) : inNumber c = false := by
  rcases hc with rfl | rfl
  · rfl
  · exact hclosing

theorem exists_eq_add_one_of_length_le {document : Json} (hdocument : Readable document)
    {fuel : Nat} (hfuel : (compact document).toList.length ≤ fuel) : ∃ more, fuel = more + 1 := by
  obtain ⟨c, cs, hcs, -⟩ := exists_compact_eq_cons hdocument
  rw [hcs] at hfuel
  exact Nat.exists_eq_add_one.2 (Nat.zero_lt_of_lt hfuel)

/-- A document is read up to its own end, as long as no character of a number follows. -/
theorem readFront_compact {document : Json} (hdocument : Readable document) {fuel : Nat}
    (hfuel : (compact document).toList.length ≤ fuel) {rest : List Char}
    (hrest : ∀ c ∈ rest.head?, inNumber c = false) :
    readFront fuel ((compact document).toList ++ rest) = some (document, rest) := by
  induction hdocument generalizing fuel rest with
  | null =>
    obtain ⟨fuel, rfl⟩ := exists_eq_add_one_of_length_le .null hfuel
    rfl
  | bool value =>
    obtain ⟨fuel, rfl⟩ := exists_eq_add_one_of_length_le (.bool value) hfuel
    cases value <;> rfl
  | float hvalue =>
    obtain ⟨fuel, rfl⟩ := exists_eq_add_one_of_length_le (.float hvalue) hfuel
    exact readFront_float hvalue fuel hrest
  | text content =>
    obtain ⟨fuel, rfl⟩ := exists_eq_add_one_of_length_le (.text content) hfuel
    simp [toList_compact_text, readFront, readQuoted_quoted]
  | @array items hitems ih =>
    obtain ⟨fuel, rfl⟩ := exists_eq_add_one_of_length_le (.array hitems) hfuel
    rw [toList_compact_array] at hfuel ⊢
    simp only [List.length_cons, List.length_append, List.length_nil] at hfuel
    have hread : ∀ item ∈ items,
        ReadsItem (readFront fuel) ']' (fun item => (compact item).toList) item := by
      intro item hmem c rest hc
      have hlength := length_le_of_mem_intercalate
        (List.mem_map_of_mem (f := fun item => (compact item).toList) hmem)
      refine ih item hmem (by omega) fun c' hc' => ?_
      obtain rfl := Option.some.inj hc'
      exact inNumber_eq_false_of_separator rfl hc
    have hitems := readEnclosed_intercalate (by decide)
      (fun item hmem => exists_compact_eq_cons (hitems item hmem)) hread rest
    simp [readFront, hitems]
  | @object members hmembers ih =>
    obtain ⟨fuel, rfl⟩ := exists_eq_add_one_of_length_le (.object hmembers) hfuel
    rw [toList_compact_object] at hfuel ⊢
    simp only [List.length_cons, List.length_append, List.length_nil] at hfuel
    have hread : ∀ member ∈ members,
        ReadsItem (readMember (readFront fuel)) '\x7d' writtenMember member := by
      intro member hmem
      have hlength := length_le_of_mem_intercalate (List.mem_map_of_mem (f := writtenMember) hmem)
      simp only [writtenMember, List.length_cons, List.length_append] at hlength
      refine readsItem_member fun c rest hc => ih member hmem (by omega) fun c' hc' => ?_
      obtain rfl := Option.some.inj hc'
      exact inNumber_eq_false_of_separator rfl hc
    have hhead : ∀ member ∈ members, ∃ c cs, writtenMember member = c :: cs ∧ c ≠ '\x7d' :=
      fun _ _ => ⟨_, _, rfl, by decide⟩
    have hmembers := readEnclosed_intercalate (by decide) hhead hread rest
    simp [readFront, hmembers]

/-- Nothing of a document is lost where it is written on one line. -/
theorem read?_compact {document : Json} (hdocument : Readable document) :
    read? (compact document) = some document := by
  have hread : readFront (compact document).toList.length ((compact document).toList ++ []) =
    some (document, []) := readFront_compact hdocument le_rfl (by simp)
  rw [List.append_nil] at hread
  rw [read?, hread]

end Candlewick.Json
