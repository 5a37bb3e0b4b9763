import Candlewick.Proofs.Settings.Acceptance
import Candlewick.Proofs.Settings.Reading

namespace Candlewick.Settings.Ini

variable {ini : Ini} {heading key symbol : String}

/-- A value that is there and cannot be read, under a key that the checks read. -/
inductive Misstates (ini : Ini) : String → String → Prop where
  | quantity {raw : String} (hraw : ini.get? "strategy" "order_quantity" = some raw)
    (hunread : Decimal.read? raw = none) : Misstates ini "strategy" "order_quantity"
  | size {heading symbol raw : String} (hplace : (heading, symbol) ∈ ini.positionSections)
    (hraw : ini.get? heading "size" = some raw) (hunread : Decimal.read? raw = none) :
    Misstates ini heading "size"
  | side {heading symbol raw : String} (hplace : (heading, symbol) ∈ ini.positionSections)
    (hraw : ini.get? heading "side" = some raw) (hunread : Side.ofText? raw = none) :
    Misstates ini heading "side"

/-- An accepted quantity is the number that is written. -/
theorem read?_orderQuantity (htrimmed : ini.Trimmed) (haccepts : ini.Accepts) {raw : String}
    (hraw : ini.get? "strategy" "order_quantity" = some raw) :
    Decimal.read? raw = some ini.orderQuantity := by
  obtain ⟨quantity, hread, -⟩ := haccepts.quantity raw hraw
  rw [htrimmed _ _ raw hraw] at hread
  rw [hread, orderQuantity, number_of_read hraw hread]

/-- Settings with a value that says nothing are refused. -/
theorem not_accepts_of_misstates (htrimmed : ini.Trimmed) (hmisstates : ini.Misstates heading key) :
    ¬ ini.Accepts := by
  intro haccepts
  cases hmisstates with
  | quantity hraw hunread =>
    rw [read?_orderQuantity htrimmed haccepts hraw] at hunread
    cases hunread
  | size hplace hraw hunread =>
    obtain ⟨raw, size, hsize, hread, -⟩ := (haccepts.positions _ hplace).size
    cases hraw.symm.trans hsize
    rw [hread] at hunread
    cases hunread
  | side hplace hraw hunread =>
    obtain ⟨raw, side, hside, hread⟩ := (haccepts.positions _ hplace).side
    cases hraw.symm.trans hside
    rw [hread] at hunread
    cases hunread

/-- A position is refused as an invalid value of its section. -/
theorem checkPosition_invalid {failure : Failure}
    (hcheck : ini.checkPosition heading symbol = .error failure) :
    ∃ key reason, failure = .configInvalid heading key reason := by
  unfold checkPosition at hcheck
  simp only at hcheck
  split at hcheck
  · cases hcheck
    exact ⟨_, _, rfl⟩
  split at hcheck
  · cases hcheck
    exact ⟨_, _, rfl⟩
  split at hcheck
  · cases hcheck
    exact ⟨_, _, rfl⟩
  split at hcheck
  · cases hcheck
    exact ⟨_, _, rfl⟩
  · cases hcheck

/-- Positions are refused as an invalid value of one of the sections. -/
theorem checkPositions_invalid {headings : List String} {failure : Failure}
    (hcheck : ini.checkPositions headings = .error failure) :
    ∃ heading key reason, failure = .configInvalid heading key reason := by
  induction headings with
  | nil => cases hcheck
  | cons heading rest ih =>
    rw [checkPositions] at hcheck
    split at hcheck
    · exact ih hcheck
    · rename_i symbol _
      cases hfirst : ini.checkPosition heading symbol with
      | ok =>
        rw [hfirst] at hcheck
        exact ih hcheck
      | error refused =>
        rw [hfirst] at hcheck
        cases hcheck
        exact ⟨heading, checkPosition_invalid hfirst⟩

/-- A quantity is refused as an invalid value. -/
theorem checkQuantity_invalid {failure : Failure} (hcheck : ini.checkQuantity = .error failure) :
    ∃ heading key reason, failure = .configInvalid heading key reason := by
  unfold checkQuantity at hcheck
  split at hcheck
  · cases hcheck
  split at hcheck
  · cases hcheck
  · cases hcheck
    exact ⟨_, _, _, rfl⟩

/-- With a directory and symbols, settings are refused for nothing but an invalid value. -/
theorem validate_invalid {symbols : List String} {failure : Failure}
    (hdirectory : ini.checkDirectory = .ok ()) (hsymbols : ini.symbols = .ok symbols)
    (hvalidate : ini.validate = .error failure) :
    ∃ heading key reason, failure = .configInvalid heading key reason := by
  rw [validate, hdirectory, hsymbols] at hvalidate
  cases hquantity : ini.checkQuantity with
  | error refused =>
    rw [hquantity] at hvalidate
    cases hvalidate
    exact checkQuantity_invalid hquantity
  | ok =>
    rw [hquantity] at hvalidate
    exact checkPositions_invalid hvalidate

/-- Of settings read from a text that pass the checks, each position is as its section describes it,
    and the quantity of an order is the number that is written. A price is the number that is
    written, or zero if none is; a price that cannot be read is zero as well. Settings with a
    quantity, a size or a side that cannot be read do not pass: with a directory and symbols, they
    are refused for an invalid value. -/
theorem values_as_written {text : String} {ini : Ini} (hini : ofText text = .ok ini) :
    (ini.validate = .ok () →
      (∀ place ∈ ini.positionSections,
        ini.Describes place.1 place.2 (ini.position place.1 place.2)) ∧
      ∀ raw, ini.get? "strategy" "order_quantity" = some raw →
        Decimal.read? raw = some ini.orderQuantity) ∧
    ∀ heading key, ini.Misstates heading key →
      ∃ failure, ini.validate = .error failure ∧
        ∀ symbols, ini.checkDirectory = .ok () → ini.symbols = .ok symbols →
          ∃ heading key reason, failure = .configInvalid heading key reason := by
  have htrimmed := trimmed_of_ofText hini
  refine ⟨fun hvalid => ?_, fun heading key hmisstates => ?_⟩
  · have haccepts := validate_eq_ok_iff.1 hvalid
    exact ⟨fun place hplace => (haccepts.positions place hplace).describes,
      fun raw hraw => read?_orderQuantity htrimmed haccepts hraw⟩
  · cases hvalidate : ini.validate with
    | ok =>
      exact absurd (validate_eq_ok_iff.1 hvalidate) (not_accepts_of_misstates htrimmed hmisstates)
    | error failure =>
      exact ⟨failure, rfl, fun symbols hdirectory hsymbols =>
        validate_invalid hdirectory hsymbols hvalidate⟩

/-- A position and a quantity that are taken as written, and a size that is refused. -/
theorem values_as_written_accepted_refused :
    (∃ ini, ofText ("[data]\ndirectory=d\nsymbols=BTC\n[strategy]\norder_quantity=2.5\n" ++
        "[position.btc]\nsize=1e2\nside=Short\nentry_price:20.5") = .ok ini ∧
      ini.validate = .ok () ∧
      ini.Describes "position.btc" "btc" (ini.position "position.btc" "btc") ∧
      ini.get? "strategy" "order_quantity" = some "2.5" ∧
      Decimal.read? "2.5" = some ini.orderQuantity) ∧
    ∃ ini, ofText ("[data]\ndirectory = d\nsymbols = BTC\n" ++
        "[position.BTC]\nsize = ten\nside = long") = .ok ini ∧
      ini.Misstates "position.BTC" "size" ∧
      ∃ failure, ini.validate = .error failure ∧
        ∃ heading key reason, failure = .configInvalid heading key reason := by
  constructor
  · let ini : Ini := ⟨⟨[("data", ⟨[("directory", some "d"), ("symbols", some "BTC")], by decide⟩),
      ("position.btc", ⟨[("entry_price", some "20.5"), ("side", some "Short"),
        ("size", some "1e2")], by decide⟩),
      ("strategy", ⟨[("order_quantity", some "2.5")], by decide⟩)], by decide⟩⟩
    have hlines : Text.lines ("[data]\ndirectory=d\nsymbols=BTC\n[strategy]\norder_quantity=2.5\n" ++
        "[position.btc]\nsize=1e2\nside=Short\nentry_price:20.5").toList =
        ["[data]".toList, "directory=d".toList, "symbols=BTC".toList, "[strategy]".toList,
          "order_quantity=2.5".toList, "[position.btc]".toList, "size=1e2".toList,
          "side=Short".toList, "entry_price:20.5".toList] := by decide +kernel
    have hini : ofText ("[data]\ndirectory=d\nsymbols=BTC\n[strategy]\norder_quantity=2.5\n" ++
        "[position.btc]\nsize=1e2\nside=Short\nentry_price:20.5") = .ok ini := by
      rw [ofText, hlines]
      rfl
    obtain ⟨htaken, -⟩ := values_as_written hini
    have hvalid : ini.validate = .ok () := by decide +kernel
    have hquantity : ini.get? "strategy" "order_quantity" = some "2.5" := by decide +kernel
    obtain ⟨hpositions, hquantities⟩ := htaken hvalid
    exact ⟨ini, hini, hvalid, hpositions ("position.btc", "btc") (by decide +kernel), hquantity,
      hquantities _ hquantity⟩
  · let ini : Ini := ⟨⟨[("data", ⟨[("directory", some "d"), ("symbols", some "BTC")], by decide⟩),
      ("position.BTC", ⟨[("side", some "long"), ("size", some "ten")], by decide⟩)], by decide⟩⟩
    have hini : ofText ("[data]\ndirectory = d\nsymbols = BTC\n" ++
        "[position.BTC]\nsize = ten\nside = long") = .ok ini := rfl
    have hplace : ("position.BTC", "BTC") ∈ ini.positionSections := by decide +kernel
    have hraw : ini.get? "position.BTC" "size" = some "ten" := by decide +kernel
    have hmisstates : ini.Misstates "position.BTC" "size" :=
      .size hplace hraw (by decide +kernel)
    obtain ⟨failure, hrefused, hinvalid⟩ := (values_as_written hini).2 _ _ hmisstates
    exact ⟨ini, hini, hmisstates, failure, hrefused,
      hinvalid ["BTC"] (by decide +kernel) (by decide +kernel)⟩

/-- A price that cannot be read passes the checks and becomes zero. -/
theorem unreadable_price_becomes_zero :
    ∃ ini, ofText ("[data]\ndirectory = d\nsymbols = BTC\n" ++
        "[position.BTC]\nsize = 1\nside = long\nentry_price = abc") = .ok ini ∧
      ini.validate = .ok () ∧
      ini.get? "position.BTC" "entry_price" = some "abc" ∧
      Decimal.read? "abc" = none ∧
      (ini.position "position.BTC" "BTC").entryPrice = 0 := by
  refine ⟨⟨⟨[("data", ⟨[("directory", some "d"), ("symbols", some "BTC")], by decide⟩),
    ("position.BTC", ⟨[("entry_price", some "abc"), ("side", some "long"), ("size", some "1")],
      by decide⟩)], by decide⟩⟩, ?_, ?_, ?_, ?_, ?_⟩
  · rfl
  · decide +kernel
  · decide +kernel
  · decide +kernel
  · decide +kernel

end Candlewick.Settings.Ini
