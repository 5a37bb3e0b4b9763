import Candlewick.Proofs.Settings.Positions
import Candlewick.Proofs.Settings.Reading
import Candlewick.Proofs.Signal.Isolation
import Candlewick.Proofs.Symbols

open Float.Model (UnpackedFloat)

namespace Candlewick.Settings.Ini

variable {ini : Ini} {x : Float}

/-- A finite number that is not below zero is at least zero; no order holds of what is no number. -/
theorem le_zero_of_isFinite {u : UnpackedFloat} (hfinite : u.isFinite = true)
    (hnot : UnpackedFloat.lt u (.zero .positive) = false) :
    UnpackedFloat.le (.zero .positive) u = true := by
  cases u with
  | infinity | notANumber => cases hfinite
  | zero sign => rfl
  | finite sign mantissa exponent hmantissa =>
    cases sign with
    | positive => rfl
    | negative => cases hnot

/-- A finite float is comparable to zero. -/
theorem zero_le_of_not_lt (hfinite : x.isFinite = true) (hnot : ¬ x < 0) : 0 ≤ x := by
  have hless : UnpackedFloat.lt x.toModel.unpack (.zero .positive) = false :=
    eq_false_of_ne_true fun hless => hnot (decide_eq_true hless)
  exact decide_eq_true (le_zero_of_isFinite hfinite hless)

/-- An amount is finite and not below zero. -/
theorem bounds_of_isAmount (hamount : isAmount x = true) : x.isFinite = true ∧ 0 ≤ x := by
  rw [isAmount, Bool.and_eq_true, Bool.not_eq_true', decide_eq_false_iff_not] at hamount
  exact ⟨hamount.1, zero_le_of_not_lt hamount.1 hamount.2⟩

/-- A positive amount is finite and above zero. -/
theorem bounds_of_isPositive (hpositive : isPositive x = true) : x.isFinite = true ∧ 0 < x := by
  rw [isPositive, Bool.and_eq_true, decide_eq_true_iff] at hpositive
  exact hpositive

/-- The symbols are at least one, without repetition, and none of them is empty. -/
theorem symbols_sound {symbols : List String} (hsymbols : ini.symbols = .ok symbols) :
    symbols ≠ [] ∧ symbols.Nodup ∧ ∀ symbol ∈ symbols, symbol ≠ "" := by
  unfold Ini.symbols at hsymbols
  split at hsymbols
  · cases hsymbols
  split at hsymbols
  · rename_i hlist
    cases hsymbols
    exact Symbols.ofText_sound hlist
  · cases hsymbols

/-- The quantity is one that passed the check, or one. -/
theorem isPositive_orderQuantity (htrimmed : ini.Trimmed) (haccepts : ini.Accepts) :
    isPositive ini.orderQuantity = true := by
  cases hraw : ini.get? "strategy" "order_quantity" with
  | none =>
    rw [orderQuantity, number_of_unread (by simp [hraw])]
    decide
  | some raw =>
    obtain ⟨quantity, hread, hpositive⟩ := haccepts.quantity raw hraw
    rw [htrimmed _ _ raw hraw] at hread
    rw [orderQuantity, number_of_read hraw hread]
    exact hpositive

/-- Both the size and the price of a position pass as amounts. -/
theorem isAmount_of_get?_positions (haccepts : ini.Accepts) {name : String} {position : Position}
    (hposition : ini.positions.get? name = some position) :
    isAmount position.size = true ∧ isAmount position.entryPrice = true := by
  obtain ⟨⟨heading, symbol⟩, hplace, -, rfl⟩ := exists_mem_of_get?_positions hposition
  have hsection := haccepts.positions _ hplace
  obtain ⟨raw, size, hraw, hread, hsize⟩ := hsection.size
  refine ⟨?_, hsection.entryPrice⟩
  rw [position, number_of_read hraw hread]
  exact hsize

/-- A signal asks for a finite quantity above zero if the desk has one and all positions are
    finite. -/
theorem isPositive_quantity_of_mem (desk : Desk) {program : Program} {series : Keyed Series}
    {positions : Keyed Position} {signal : Signal} (hdesk : isPositive desk.quantity = true)
    (hsizes : ∀ name position, positions.get? name = some position →
      position.size.isFinite = true)
    (hsignal : signal ∈ (desk.signals program series positions).1) :
    isPositive signal.quantity = true := by
  obtain ⟨history, -, hdecided⟩ := Desk.decided_of_mem hsignal
  cases haction : signal.action with
  | buy =>
    rw [(hdecided.buy haction).1]
    exact hdesk
  | sell =>
    obtain ⟨position, hposition, hopen, hquantity⟩ := hdecided.sell haction
    rw [hquantity, isPositive, hsizes _ _ hposition]
    exact decide_eq_true hopen

/-- Settings read from a text that pass the checks name at least one symbol, none of them empty and
    no two equal. The quantity of an order is finite and above zero, the size and the price of each
    position are finite and not below zero, and so no signal on these settings asks for a quantity
    that is not finite and above zero. -/
theorem accepted_values_safe {text : String} {ini : Ini} (hini : ofText text = .ok ini)
    (hvalid : ini.validate = .ok ()) :
    (∃ symbols, ini.symbols = .ok symbols ∧
      symbols ≠ [] ∧ symbols.Nodup ∧ ∀ symbol ∈ symbols, symbol ≠ "") ∧
    (ini.orderQuantity.isFinite = true ∧ 0 < ini.orderQuantity) ∧
    (∀ name position, ini.positions.get? name = some position →
      (position.size.isFinite = true ∧ 0 ≤ position.size) ∧
      (position.entryPrice.isFinite = true ∧ 0 ≤ position.entryPrice)) ∧
    ∀ program series, ∀ signal ∈
        (Desk.signals ⟨ini.orderQuantity, ini.bindings⟩ program series ini.positions).1,
      signal.quantity.isFinite = true ∧ 0 < signal.quantity := by
  have haccepts := validate_eq_ok_iff.1 hvalid
  have hquantity := isPositive_orderQuantity (trimmed_of_ofText hini) haccepts
  obtain ⟨symbols, hsymbols⟩ := haccepts.symbols
  have hpositions : ∀ name position, ini.positions.get? name = some position →
      (position.size.isFinite = true ∧ 0 ≤ position.size) ∧
      (position.entryPrice.isFinite = true ∧ 0 ≤ position.entryPrice) := by
    intro name position hposition
    obtain ⟨hsize, hprice⟩ := isAmount_of_get?_positions haccepts hposition
    exact ⟨bounds_of_isAmount hsize, bounds_of_isAmount hprice⟩
  refine ⟨⟨symbols, hsymbols, symbols_sound hsymbols⟩, bounds_of_isPositive hquantity, hpositions,
    fun program series signal hsignal => bounds_of_isPositive ?_⟩
  exact isPositive_quantity_of_mem ⟨ini.orderQuantity, ini.bindings⟩ hquantity
    (fun name position hposition => (hpositions name position hposition).1.1) hsignal

/-- A quantity, two symbols, and a position of size minus zero without a price. -/
theorem accepted_values_safe_minus_zero :
    ∃ ini, ofText ("[data]\ndirectory=d\nsymbols=BTC,eth\n[strategy]\norder_quantity=1e-3\n" ++
        "[position.btc]\nsize=-0\nside=long\nentry_price") = .ok ini ∧
      ini.validate = .ok () ∧ ini.symbols = .ok ["BTC", "ETH"] ∧
      (ini.orderQuantity.isFinite = true ∧ 0 < ini.orderQuantity) ∧
      ini.positions.get? "BTC" = some (ini.position "position.btc" "btc") ∧
      0 ≤ (ini.position "position.btc" "btc").size := by
  let ini : Ini := ⟨⟨[("data", ⟨[("directory", some "d"), ("symbols", some "BTC,eth")], by decide⟩),
    ("position.btc", ⟨[("entry_price", none), ("side", some "long"), ("size", some "-0")],
      by decide⟩),
    ("strategy", ⟨[("order_quantity", some "1e-3")], by decide⟩)], by decide⟩⟩
  have hini : ofText ("[data]\ndirectory=d\nsymbols=BTC,eth\n[strategy]\norder_quantity=1e-3\n" ++
      "[position.btc]\nsize=-0\nside=long\nentry_price") = .ok ini := rfl
  have hvalid : ini.validate = .ok () := by decide +kernel
  have hsections : ini.positionSections = [] ++ ("position.btc", "btc") :: [] := by decide +kernel
  have hsymbol : Symbols.normal "btc" = "BTC" := by decide +kernel
  have hposition := get?_positions_of_last hsections nofun
  rw [hsymbol] at hposition
  obtain ⟨-, hquantity, hpositions, -⟩ := accepted_values_safe hini hvalid
  exact ⟨ini, hini, hvalid, by decide +kernel, hquantity, hposition,
    (hpositions _ _ hposition).1.2⟩

end Candlewick.Settings.Ini
