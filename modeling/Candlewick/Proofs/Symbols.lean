import Candlewick.Proofs.Text.Capital
import Candlewick.Proofs.Text.Pieces
import Candlewick.Proofs.Text.Trimming
import Candlewick.Symbols

namespace Candlewick

namespace Symbols

theorem allBlank_iff {text : String} : Text.allBlank text = true ↔ Text.trim text = "" := by
  rw [Text.trim, String.ofList_eq_empty_iff, Text.trimmed_eq_nil_iff]
  rfl

/-- A text with more than blanks in it makes a symbol. -/
theorem normal_ne_empty {text : String} (htext : Text.trim text ≠ "") : normal text ≠ "" := by
  have hchars : (Text.trim text).toList ≠ [] := by simpa using htext
  obtain ⟨c, rest, hcons⟩ := List.exists_cons_of_ne_nil hchars
  rw [normal, Text.capitals, Ne, String.ofList_eq_empty_iff, hcons]
  simp [Text.capital_ne_nil]

/-- Why a piece behind some symbols is refused, if it is. -/
inductive Offends (earlier : List String) (piece : String) : SymbolFault → Prop where
  | blank (hblank : Text.trim piece = "") : Offends earlier piece .emptyToken
  | twice (hne : Text.trim piece ≠ "") (hearlier : normal piece ∈ earlier) :
    Offends earlier piece (.duplicateSymbol (normal piece))

/-- Pieces that make symbols, no two of them alike. -/
structure Proper (pieces : List String) : Prop where
  notBlank : ∀ piece ∈ pieces, Text.trim piece ≠ ""
  nodup : (pieces.map normal).Nodup

variable {earlier pieces : List String} {piece : String} {fault : SymbolFault}

/-- A piece that offends is what the list is refused with, whatever follows it. -/
theorem distinct_cons_of_offends (hoffends : Offends earlier piece fault) (rest : List String) :
    distinct earlier (piece :: rest) = .error fault := by
  rw [distinct]
  cases hoffends with
  | blank hblank => rw [if_pos (allBlank_iff.2 hblank)]
  | twice hne hearlier => rw [if_neg (mt allBlank_iff.1 hne), if_pos hearlier]

/-- A piece that does not offend is put in front of what the others make. -/
theorem distinct_cons_of_new (hne : Text.trim piece ≠ "") (hnew : normal piece ∉ earlier)
    (rest : List String) :
    distinct earlier (piece :: rest) =
      (distinct (normal piece :: earlier) rest).map (normal piece :: ·) := by
  rw [distinct, if_neg (mt allBlank_iff.1 hne), if_neg hnew]
  cases distinct (normal piece :: earlier) rest <;> rfl

/-- Every piece offends or makes a symbol that is not there yet. -/
theorem exists_offends_or_new (earlier : List String) (piece : String) :
    (∃ fault, Offends earlier piece fault) ∨ Text.trim piece ≠ "" ∧ normal piece ∉ earlier := by
  by_cases hblank : Text.trim piece = ""
  · exact .inl ⟨_, .blank hblank⟩
  · by_cases hearlier : normal piece ∈ earlier
    · exact .inl ⟨_, .twice hblank hearlier⟩
    · exact .inr ⟨hblank, hearlier⟩

/-- The pieces that were gone through are proper: `earlier` are the symbols of those in front. Either
    each of the others makes a symbol, or the first one that does not is refused. -/
theorem distinct_cases (front : List String) (hfront : Proper front) :
    (Proper (front ++ pieces) ∧
      distinct (front.map normal).reverse pieces = .ok (pieces.map normal)) ∨
    ∃ more piece back fault, pieces = more ++ piece :: back ∧ Proper (front ++ more) ∧
      Offends ((front ++ more).map normal) piece fault ∧
      distinct (front.map normal).reverse pieces = .error fault := by
  induction pieces generalizing front with
  | nil =>
    rw [List.append_nil]
    exact .inl ⟨hfront, rfl⟩
  | cons piece rest ih =>
    rcases exists_offends_or_new (front.map normal).reverse piece with
      ⟨fault, hoffends⟩ | ⟨hne, hnew⟩
    · refine .inr ⟨[], piece, rest, fault, rfl, ?_, ?_, distinct_cons_of_offends hoffends rest⟩
      · rwa [List.append_nil]
      · rw [List.append_nil]
        cases hoffends with
        | blank hblank => exact .blank hblank
        | twice hne hearlier => exact .twice hne (List.mem_reverse.1 hearlier)
    · have hlonger : Proper (front ++ [piece]) := by
        refine ⟨List.forall_mem_append.2 ⟨hfront.notBlank, List.forall_mem_singleton.2 hne⟩, ?_⟩
        rw [List.map_append, List.map_singleton, List.nodup_append]
        refine ⟨hfront.nodup, by simp, fun symbol hsymbol other hother hsame => ?_⟩
        rw [List.mem_singleton.1 hother] at hsame
        exact hnew (List.mem_reverse.2 (hsame ▸ hsymbol))
      have hreverse : normal piece :: (front.map normal).reverse =
          ((front ++ [piece]).map normal).reverse := by simp
      rw [distinct_cons_of_new hne hnew, hreverse]
      rcases ih (front ++ [piece]) hlonger with ⟨hproper, hrest⟩ |
        ⟨more, other, back, fault, hsplit, hproper, hoffends, hrest⟩
      · rw [hrest]
        rw [List.append_assoc] at hproper
        exact .inl ⟨hproper, rfl⟩
      · rw [hrest]
        rw [List.append_assoc] at hproper hoffends
        exact .inr ⟨piece :: more, other, back, fault, by rw [hsplit]; rfl, hproper, hoffends, rfl⟩

/-- Proper pieces do not offend. -/
theorem Proper.not_offends {front back : List String}
    (hproper : Proper (front ++ piece :: back)) : ¬ Offends (front.map normal) piece fault := by
  intro hoffends
  have hnodup := hproper.nodup
  rw [List.map_append, List.map_cons] at hnodup
  cases hoffends with
  | blank hblank =>
    exact hproper.notBlank piece (List.mem_append_right _ List.mem_cons_self) hblank
  | twice hne hearlier =>
    exact (List.nodup_append.1 hnodup).2.2 _ hearlier _ List.mem_cons_self rfl

/-- A list is accepted, with a symbol for each of its pieces, if these are proper; else its first piece
    that offends is refused. -/
theorem distinct_nil_cases (pieces : List String) :
    (Proper pieces ∧ distinct [] pieces = .ok (pieces.map normal)) ∨
    ∃ front piece back fault, pieces = front ++ piece :: back ∧ Proper front ∧
      Offends (front.map normal) piece fault ∧ distinct [] pieces = .error fault :=
  distinct_cases [] ⟨nofun, List.nodup_nil⟩

/-- Blanks around a text cannot come up where its letters become capital. -/
theorem trimmed_flatMap_capital {cs : List Char} (hcs : Text.trimmed cs = cs) :
    Text.trimmed (cs.flatMap Text.capital) = cs.flatMap Text.capital := by
  obtain ⟨hfirst, hlast⟩ := Text.trimmed_eq_self_iff.1 hcs
  refine Text.trimmed_eq_self_iff.2 ⟨fun d hd => ?_, fun d hd => ?_⟩
  · cases cs with
    | nil => cases hd
    | cons c rest =>
      rw [List.flatMap_cons, List.head?_append_of_ne_nil _ (Text.capital_ne_nil c)] at hd
      exact Text.not_isBlank_of_mem_capital (hfirst c rfl) (List.mem_of_head? hd)
  · rcases List.eq_nil_or_concat' cs with rfl | ⟨front, c, rfl⟩
    · cases hd
    · rw [List.flatMap_append, List.flatMap_singleton,
        List.getLast?_append_of_ne_nil _ (Text.capital_ne_nil c)] at hd
      exact Text.not_isBlank_of_mem_capital (hlast c (by simp)) (List.mem_of_getLast? hd)

/-- A symbol as it is kept has no blanks around it. -/
theorem trim_normal (text : String) : Text.trim (normal text) = normal text := by
  rw [normal, Text.trim, Text.capitals, Text.trim, String.toList_ofList, String.toList_ofList,
    trimmed_flatMap_capital (Text.trimmed_trimmed text.toList)]

/-- What is kept of a symbol is kept as it is. -/
theorem normal_normal (text : String) : normal (normal text) = normal text := by
  rw [normal, trim_normal]
  exact Text.capitals_capitals (Text.trim text)

/-- The symbols of proper pieces are proper pieces, and make themselves. -/
theorem Proper.symbols (hproper : Proper pieces) :
    Proper (pieces.map normal) ∧ (pieces.map normal).map normal = pieces.map normal := by
  have hsame : (pieces.map normal).map normal = pieces.map normal := by
    rw [List.map_map]
    exact List.map_congr_left fun piece _ => normal_normal piece
  refine ⟨⟨?_, hsame.symm ▸ hproper.nodup⟩, hsame⟩
  intro symbol hsymbol
  obtain ⟨piece, hpiece, rfl⟩ := List.mem_map.1 hsymbol
  rw [trim_normal]
  exact normal_ne_empty (hproper.notBlank piece hpiece)

/-- The pieces of a list. -/
def piecesOf (text : String) : List String :=
  (Text.pieces ',' text.toList).map String.ofList

theorem piecesOf_ne_nil (text : String) : piecesOf text ≠ [] := by
  simpa [piecesOf] using Text.pieces_ne_nil ',' text.toList

theorem comma_notMem_of_mem_piecesOf {text piece : String} (hpiece : piece ∈ piecesOf text) :
    ',' ∉ piece.toList := by
  obtain ⟨cs, hcs, rfl⟩ := List.mem_map.1 hpiece
  rw [String.toList_ofList]
  exact Text.not_mem_of_mem_pieces hcs

/-- The pieces of a text, joined by commas, are the text. -/
theorem intercalate_piecesOf (text : String) : String.intercalate "," (piecesOf text) = text := by
  apply String.ext
  rw [String.toList_intercalate, piecesOf, List.map_map]
  simp [Function.comp_def, Text.intercalate_pieces]

/-- Symbols without commas, joined by commas, are the pieces of the text. -/
theorem piecesOf_intercalate {symbols : List String} (hne : symbols ≠ [])
    (hsymbols : ∀ symbol ∈ symbols, ',' ∉ symbol.toList) :
    piecesOf (String.intercalate "," symbols) = symbols := by
  rw [piecesOf, String.toList_intercalate]
  rw [show ",".toList = [','] from rfl, Text.pieces_intercalate]
  · simp [Function.comp_def]
  · simpa using hne
  · simpa using hsymbols

/-- There is no comma in a symbol. -/
theorem comma_notMem_normal {piece : String} (hpiece : ',' ∉ piece.toList) :
    ',' ∉ (normal piece).toList := by
  intro hcomma
  have htrimmed := Text.comma_mem_capitals hcomma
  rw [Text.trim, String.toList_ofList, Text.trimmed_eq] at htrimmed
  exact hpiece ((List.dropWhile_suffix _).subset ((List.rdropWhile_prefix _ _).subset htrimmed))

/-- A list is accepted as the symbols of its pieces, or refused with what its first offending piece
    says. -/
theorem ofText_cases (text : String) :
    (Proper (piecesOf text) ∧ ofText text = .ok ((piecesOf text).map normal)) ∨
    ∃ front piece back fault, piecesOf text = front ++ piece :: back ∧ Proper front ∧
      Offends (front.map normal) piece fault ∧ ofText text = .error fault :=
  distinct_nil_cases (piecesOf text)

/-- A list of symbols that is accepted has a symbol for each of its pieces. -/
theorem ofText_sound {text : String} {symbols : List String}
    (hsymbols : ofText text = .ok symbols) :
    symbols ≠ [] ∧ symbols.Nodup ∧ ∀ symbol ∈ symbols, symbol ≠ "" := by
  rcases ofText_cases text with ⟨hproper, hok⟩ | ⟨front, piece, back, fault, -, -, -, herror⟩
  · rw [hok] at hsymbols
    cases hsymbols
    refine ⟨by simpa using piecesOf_ne_nil text, hproper.nodup, ?_⟩
    rintro symbol hsymbol rfl
    exact hproper.symbols.1.notBlank "" hsymbol rfl
  · rw [herror] at hsymbols
    cases hsymbols

/-- What is accepted of a list is accepted again as it is kept. -/
theorem ofText_intercalate {text : String} (hproper : Proper (piecesOf text)) :
    ofText (String.intercalate "," ((piecesOf text).map normal)) =
      .ok ((piecesOf text).map normal) := by
  obtain ⟨hsymbols, hsame⟩ := hproper.symbols
  have hpieces : piecesOf (String.intercalate "," ((piecesOf text).map normal)) =
      (piecesOf text).map normal := by
    refine piecesOf_intercalate (by simpa using piecesOf_ne_nil text) fun symbol hsymbol => ?_
    obtain ⟨piece, hpiece, rfl⟩ := List.mem_map.1 hsymbol
    exact comma_notMem_normal (comma_notMem_of_mem_piecesOf hpiece)
  rcases ofText_cases (String.intercalate "," ((piecesOf text).map normal)) with
    ⟨-, haccepted⟩ | ⟨front, piece, back, fault, hsplit, -, hoffends, -⟩
  · rwa [hpieces, hsame] at haccepted
  · rw [hpieces] at hsplit
    rw [hsplit] at hsymbols
    exact absurd hoffends hsymbols.not_offends

/-- A list of symbols is accepted exactly when none of the pieces between its commas is blank and no two
    of them make the same symbol. It then has the symbols of its pieces, in their order, and is accepted
    again as it is kept. Else it is refused for the first piece that offends. -/
theorem lists_are_read_exactly (text : String) :
    (String.intercalate "," (piecesOf text) = text ∧
      ∀ piece ∈ piecesOf text, ',' ∉ piece.toList) ∧
    ((∃ symbols, ofText text = .ok symbols) ↔
      (∀ piece ∈ piecesOf text, Text.trim piece ≠ "") ∧
        ((piecesOf text).map fun piece => Text.capitals (Text.trim piece)).Nodup) ∧
    (∀ symbols, ofText text = .ok symbols →
      symbols = (piecesOf text).map (fun piece => Text.capitals (Text.trim piece)) ∧
        ofText (String.intercalate "," symbols) = .ok symbols) ∧
    ∀ fault, ofText text = .error fault →
      ∃ front piece back, piecesOf text = front ++ piece :: back ∧ Proper front ∧
        Offends (front.map normal) piece fault := by
  refine ⟨⟨intercalate_piecesOf text, fun piece => comma_notMem_of_mem_piecesOf⟩, ?_⟩
  rcases ofText_cases text with ⟨hproper, hok⟩ |
    ⟨front, piece, back, fault, hsplit, hfront, hoffends, herror⟩
  · refine ⟨⟨fun _ => ⟨hproper.notBlank, hproper.nodup⟩, fun _ => ⟨_, hok⟩⟩,
      fun symbols hsymbols => ?_, fun fault hfault => ?_⟩
    · rw [hok] at hsymbols
      cases hsymbols
      exact ⟨rfl, ofText_intercalate hproper⟩
    · rw [hok] at hfault
      cases hfault
  · refine ⟨⟨?_, ?_⟩, fun symbols hsymbols => ?_, fun found hfound => ?_⟩
    · rintro ⟨symbols, hsymbols⟩
      rw [herror] at hsymbols
      cases hsymbols
    · rintro ⟨hblank, hnodup⟩
      have hproper : Proper (piecesOf text) := ⟨hblank, hnodup⟩
      rw [hsplit] at hproper
      exact absurd hoffends hproper.not_offends
    · rw [herror] at hsymbols
      cases hsymbols
    · rw [herror] at hfound
      cases hfound
      exact ⟨front, piece, back, hsplit, hfront, hoffends⟩

end Symbols

end Candlewick
