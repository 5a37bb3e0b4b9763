import Candlewick.Settings.Loading
import Mathlib.Data.List.Basic

namespace Candlewick.Settings.Ini

/-- The sections that describe positions, with the symbols in their headings. -/
def positionSections (ini : Ini) : List (String × String) :=
  ini.headings.filterMap fun heading => (positionSymbol? heading).map (heading, ·)

/-- A section that passes as a position. It has a symbol, a size and a side; without a price that
    can be read the price is zero. -/
structure AcceptsPosition (ini : Ini) (heading symbol : String) : Prop where
  symbol : symbol ≠ ""
  size : ∃ raw size, ini.get? heading "size" = some raw ∧ Decimal.read? raw = some size ∧
    isAmount size = true
  side : ∃ raw side, ini.get? heading "side" = some raw ∧ Side.ofText? raw = some side
  entryPrice : isAmount (ini.number heading "entry_price" 0) = true

/-- A position as its section describes it: the symbol as it is kept, size and side as they are
    written, and the price as well if it can be read. -/
structure Describes (ini : Ini) (heading symbol : String) (position : Position) : Prop where
  symbol : position.symbol = Symbols.normal symbol
  size : ∃ raw, ini.get? heading "size" = some raw ∧ Decimal.read? raw = some position.size
  side : ∃ raw, ini.get? heading "side" = some raw ∧ Side.ofText? raw = some position.side
  price : ∀ raw price, ini.get? heading "entry_price" = some raw →
    Decimal.read? raw = some price → position.entryPrice = price
  noPrice : (∀ raw, ini.get? heading "entry_price" = some raw → Decimal.read? raw = none) →
    position.entryPrice = 0

/-- Settings that pass all checks. -/
structure Accepts (ini : Ini) : Prop where
  directory : ∃ path, ini.get? "data" "directory" = some path ∧ Text.allBlank path = false
  symbols : ∃ symbols, ini.symbols = .ok symbols
  quantity : ∀ raw, ini.get? "strategy" "order_quantity" = some raw →
    ∃ quantity, Decimal.read? (Text.trim raw) = some quantity ∧ isPositive quantity = true
  positions : ∀ place ∈ ini.positionSections, ini.AcceptsPosition place.1 place.2

variable {ini : Ini} {heading key symbol : String}

/-- A number that can be read is taken as it is read. -/
theorem number_of_read {raw : String} {x : Float} (hraw : ini.get? heading key = some raw)
    (hread : Decimal.read? raw = some x) (fallback : Float) :
    ini.number heading key fallback = x := by
  rw [number, hraw, Option.bind_some, hread, Option.getD_some]

/-- A number that is not there, or cannot be read, is the fallback. -/
theorem number_of_unread (hunread : ∀ raw, ini.get? heading key = some raw →
    Decimal.read? raw = none) (fallback : Float) :
    ini.number heading key fallback = fallback := by
  cases hraw : ini.get? heading key with
  | none => rw [number, hraw, Option.bind_none, Option.getD_none]
  | some raw => rw [number, hraw, Option.bind_some, hunread raw hraw, Option.getD_none]

/-- With a fallback that does not pass, only a number that is read does. -/
theorem isAmount_number_iff {fallback : Float} (hfallback : isAmount fallback = false) :
    isAmount (ini.number heading key fallback) = true ↔
      ∃ raw x, ini.get? heading key = some raw ∧ Decimal.read? raw = some x ∧
        isAmount x = true := by
  constructor
  · intro hamount
    by_cases hread : ∃ raw x, ini.get? heading key = some raw ∧ Decimal.read? raw = some x
    · obtain ⟨raw, x, hraw, hx⟩ := hread
      rw [number_of_read hraw hx] at hamount
      exact ⟨raw, x, hraw, hx, hamount⟩
    · rw [number_of_unread fun raw hraw => ?_, hfallback] at hamount
      · cases hamount
      · exact Option.eq_none_iff_forall_not_mem.2 fun x hx => hread ⟨raw, x, hraw, hx⟩
  · rintro ⟨raw, x, hraw, hx, hamount⟩
    rw [number_of_read hraw hx]
    exact hamount

/-- A position that passes the checks is described by its section. -/
theorem AcceptsPosition.describes (haccepts : ini.AcceptsPosition heading symbol) :
    ini.Describes heading symbol (ini.position heading symbol) := by
  obtain ⟨rawSize, size, hrawSize, hsize, -⟩ := haccepts.size
  obtain ⟨rawSide, side, hrawSide, hside⟩ := haccepts.side
  have hloadedSide : (ini.position heading symbol).side = side := by
    simp [position, hrawSide, hside]
  refine ⟨rfl, ⟨rawSize, hrawSize, ?_⟩, ⟨rawSide, hrawSide, ?_⟩, ?_, ?_⟩
  · rw [hsize, position, number_of_read hrawSize hsize]
  · rw [hside, hloadedSide]
  · exact fun raw price hraw hprice => number_of_read hraw hprice 0
  · exact fun hunread => number_of_unread hunread 0

theorem isSome_side_iff :
    (Side.ofText? ((ini.get? heading "side").getD "")).isSome = true ↔
      ∃ raw side, ini.get? heading "side" = some raw ∧ Side.ofText? raw = some side := by
  rw [Option.isSome_iff_exists]
  cases ini.get? heading "side" with
  | none =>
    have hempty : Side.ofText? "" = none := by decide
    simp [hempty]
  | some raw => simp

/-- A position passes exactly if each of its values does. -/
theorem checkPosition_eq_ok_iff :
    ini.checkPosition heading symbol = .ok () ↔ ini.AcceptsPosition heading symbol := by
  have hsize : isAmount (-1) = false := by decide
  unfold checkPosition
  constructor
  · intro hcheck
    simp only at hcheck
    split at hcheck
    · cases hcheck
    rename_i hsymbol
    split at hcheck
    · cases hcheck
    rename_i hamount
    split at hcheck
    · cases hcheck
    rename_i hside
    split at hcheck
    · cases hcheck
    rename_i hprice
    exact {
      symbol := by simpa using hsymbol
      size := (isAmount_number_iff hsize).1 (by simpa using hamount)
      side := isSome_side_iff.1 (by simpa [Option.isSome_iff_ne_none] using hside)
      entryPrice := by simpa using hprice }
  · intro haccepts
    have hside := isSome_side_iff.2 haccepts.side
    rw [Option.isSome_iff_ne_none] at hside
    simp [haccepts.symbol, (isAmount_number_iff hsize).2 haccepts.size, hside,
      haccepts.entryPrice]

/-- The positions pass exactly if each of them does, in whatever order they are checked. -/
theorem checkPositions_eq_ok_iff (headings : List String) :
    ini.checkPositions headings = .ok () ↔
      ∀ heading ∈ headings, ∀ symbol, positionSymbol? heading = some symbol →
        ini.AcceptsPosition heading symbol := by
  induction headings with
  | nil => simp [checkPositions]
  | cons heading rest ih =>
    rw [checkPositions, List.forall_mem_cons, ← ih]
    cases hsymbol : positionSymbol? heading with
    | none => simp
    | some symbol =>
      simp only [Option.some.injEq, forall_eq', ← checkPosition_eq_ok_iff]
      cases ini.checkPosition heading symbol <;> simp [bind, Except.bind]

/-- The sections of positions are those with a heading that names a symbol. -/
theorem forall_mem_positionSections_iff {accepts : String → String → Prop} :
    (∀ place ∈ ini.positionSections, accepts place.1 place.2) ↔
      ∀ heading ∈ ini.headings, ∀ symbol, positionSymbol? heading = some symbol →
        accepts heading symbol := by
  simp only [positionSections, List.mem_filterMap, Option.map_eq_some_iff]
  constructor
  · intro hall heading hmem symbol hsymbol
    exact hall (heading, symbol) ⟨heading, hmem, symbol, hsymbol, rfl⟩
  · rintro hall - ⟨heading, hmem, symbol, hsymbol, rfl⟩
    exact hall heading hmem symbol hsymbol

/-- The directory passes exactly if it is given and not blank. -/
theorem checkDirectory_eq_ok_iff :
    ini.checkDirectory = .ok () ↔
      ∃ path, ini.get? "data" "directory" = some path ∧ Text.allBlank path = false := by
  unfold checkDirectory filled?
  cases ini.get? "data" "directory" with
  | none => simp
  | some path => cases hblank : Text.allBlank path <;> simp [Option.filter, hblank]

/-- The quantity passes exactly if it is missing or a number above zero. -/
theorem checkQuantity_eq_ok_iff :
    ini.checkQuantity = .ok () ↔
      ∀ raw, ini.get? "strategy" "order_quantity" = some raw →
        ∃ quantity, Decimal.read? (Text.trim raw) = some quantity ∧
          isPositive quantity = true := by
  unfold checkQuantity
  cases ini.get? "strategy" "order_quantity" with
  | none => simp
  | some raw =>
    cases hread : Decimal.read? (Text.trim raw) with
    | none => simp [hread]
    | some quantity => simp [hread]

instance {ε α : Type} [DecidableEq α] (result : Except ε α) (value : α) :
    Decidable (result = .ok value) :=
  match result with
  | .ok found => decidable_of_iff (found = value) ⟨congrArg Except.ok, Except.ok.inj⟩
  | .error _ => .isFalse nofun

/-- The checks pass exactly for the settings that hold what is asked for. -/
theorem validate_eq_ok_iff : ini.validate = .ok () ↔ ini.Accepts := by
  have hpositions : ini.checkPositions ini.headings = .ok () ↔ _ :=
    checkPositions_eq_ok_iff ini.headings
  rw [← forall_mem_positionSections_iff] at hpositions
  unfold validate
  constructor
  · intro hvalid
    cases hdirectory : ini.checkDirectory with
    | error failure =>
      rw [hdirectory] at hvalid
      cases hvalid
    | ok =>
      cases hsymbols : ini.symbols with
      | error failure =>
        rw [hdirectory, hsymbols] at hvalid
        cases hvalid
      | ok symbols =>
        cases hquantity : ini.checkQuantity with
        | error failure =>
          rw [hdirectory, hsymbols, hquantity] at hvalid
          cases hvalid
        | ok =>
          rw [hdirectory, hsymbols, hquantity] at hvalid
          exact ⟨checkDirectory_eq_ok_iff.1 hdirectory, ⟨symbols, hsymbols⟩,
            checkQuantity_eq_ok_iff.1 hquantity, hpositions.1 hvalid⟩
  · rintro ⟨hdirectory, ⟨symbols, hsymbols⟩, hquantity, hall⟩
    rw [checkDirectory_eq_ok_iff.2 hdirectory, hsymbols, checkQuantity_eq_ok_iff.2 hquantity]
    exact hpositions.2 hall

end Candlewick.Settings.Ini
