import Candlewick.Signal
import Mathlib.Data.List.Basic

namespace Candlewick

namespace Keyed

variable {α : Type}

/-- What a table holds under one name, and nothing else. -/
def only (table : Keyed α) (name : String) : Keyed α :=
  ⟨table.entries.filter (·.1 == name), table.ascending.filter _⟩

theorem entries_only (table : Keyed α) (name : String) :
    (table.only name).entries = table.entries.filter (·.1 == name) := rfl

/-- In the entries of one name, only this name is found. -/
theorem lookup_filter_eq (name other : String) (entries : List (String × α)) :
    (entries.filter (·.1 == name)).lookup other =
      if other = name then entries.lookup name else none := by
  induction entries with
  | nil => simp
  | cons entry rest ih => grind

/-- A table cut down to a name holds what it held under this name, and nothing else. -/
@[simp] theorem get?_only (table : Keyed α) (name other : String) :
    (table.only name).get? other = if other = name then table.get? name else none :=
  lookup_filter_eq name other table.entries

/-- Tables that hold the same under a name are cut down to the same table. -/
theorem only_congr {one other : Keyed α} {name : String} (hget : one.get? name = other.get? name) :
    one.only name = other.only name := by
  apply ext_get?
  intro asked
  rw [get?_only, get?_only, hget]

/-- Every entry of a table is found under its name. -/
theorem get?_of_mem {table : Keyed α} {name : String} {value : α}
    (hmem : (name, value) ∈ table.entries) : table.get? name = some value := by
  obtain ⟨front, back, hentries⟩ := List.append_of_mem hmem
  have hascending := table.ascending
  rw [hentries, List.pairwise_append] at hascending
  refine List.lookup_eq_some_iff.2 ⟨front, back, hentries, fun entry hentry => ?_⟩
  have hne := Std.ne_of_lt (hascending.2.2 entry hentry _ List.mem_cons_self)
  simpa using hne.symm

end Keyed

/-- What a signal is decided on and what it asks for: it carries the time of the latest candle, a
    purchase the quantity of an order, for there is no open position, and a sale the size of the
    open position. -/
structure Signal.Decided (desk : Desk) (history : Series) (position? : Option Position)
    (signal : Signal) : Prop where
  latest : ∃ candle, history.latest? = some candle ∧ signal.timestamp = candle.timestamp
  buy : signal.action = .buy →
    signal.quantity = desk.quantity ∧ ∀ position ∈ position?, ¬ 0 < position.size
  sell : signal.action = .sell →
    ∃ position ∈ position?, 0 < position.size ∧ signal.quantity = position.size

namespace Desk

/-- The signal of one symbol. There is none also if the evaluation fails. -/
def decided? (desk : Desk) (program : Program) (symbol : String) (history : Series)
    (position? : Option Position) : Option Signal :=
  (desk.signal? program symbol history position?).toOption.bind id

/-- The signals are decided symbol by symbol, in the order of the symbols. -/
theorem fst_signals (desk : Desk) (program : Program) (series : Keyed Series)
    (positions : Keyed Position) :
    (desk.signals program series positions).1 = series.entries.filterMap fun entry =>
      desk.decided? program entry.1 entry.2 (positions.get? entry.1) := by
  simp only [signals, List.filterMap_map]
  rfl

/-- A strategy has a value only where there is a latest candle. -/
theorem exists_latest?_of_execute {program : Program} {history : Series} {bindings : Variables}
    {value : Value} (hexecute : execute program history bindings = .ok value) :
    ∃ candle, history.latest? = some candle := by
  unfold execute at hexecute
  split at hexecute
  · cases hexecute
  · rename_i hcandles
    have hne : history.candles ≠ [] := by simpa [Series.isEmpty] using hcandles
    exact ⟨_, List.getLast?_eq_some_getLast hne⟩

/-- A signal is the one that the desk decides on for its symbol. -/
theorem decided_of_decided? {desk : Desk} {program : Program} {symbol : String}
    {history : Series} {position? : Option Position} {signal : Signal}
    (hsignal : desk.decided? program symbol history position? = some signal) :
    signal.symbol = symbol ∧ signal.Decided desk history position? := by
  unfold decided? signal? at hsignal
  simp only at hsignal
  cases hexecute : execute program history
      (withPosition desk.bindings (position?.filter Position.isOpen)) with
  | error fault =>
    rw [hexecute] at hsignal
    cases hsignal
  | ok value =>
    obtain ⟨candle, hcandle⟩ := exists_latest?_of_execute hexecute
    rw [hexecute, hcandle] at hsignal
    simp only [bind, Except.bind] at hsignal
    split at hsignal
    · rename_i hclosed
      cases hsignal
      refine ⟨rfl, ⟨candle, hcandle, rfl⟩, fun _ => ⟨rfl, ?_⟩, fun hsell => nomatch hsell⟩
      simpa [Option.filter_eq_none_iff, Position.isOpen] using hclosed
    · rename_i position hopen
      cases hsignal
      obtain ⟨hposition, hsize⟩ := Option.filter_eq_some_iff.1 hopen
      exact ⟨rfl, ⟨candle, hcandle, rfl⟩, fun hbuy => (nomatch hbuy),
        fun _ => ⟨position, hposition, of_decide_eq_true hsize, rfl⟩⟩
    · cases hsignal

/-- The names under which a program finds the position. -/
def positionNames : List String :=
  ["position_size", "position_side", "entry_price"]

/-- Variables that agree but on the names of a position agree once the position is put in. -/
theorem withPosition_congr {bindings bindings' : Variables}
    (hagree : ∀ name, name ∉ positionNames → bindings.get? name = bindings'.get? name)
    (open? : Option Position) : withPosition bindings open? = withPosition bindings' open? := by
  apply Keyed.ext_get?
  intro name
  have hname := hagree name
  simp only [positionNames, List.mem_cons, List.not_mem_nil, or_false, not_or] at hname
  unfold withPosition
  simp only [Keyed.get?_put]
  grind

/-- The bindings of the names for the position have no part in the signals. -/
theorem signals_congr {desk : Desk} {bindings : Variables}
    (hagree : ∀ name, name ∉ positionNames → bindings.get? name = desk.bindings.get? name)
    (program : Program) (series : Keyed Series) (positions : Keyed Position) :
    { desk with bindings }.signals program series positions =
      desk.signals program series positions := by
  have hsignal : ∀ symbol history position?,
      { desk with bindings }.signal? program symbol history position? =
        desk.signal? program symbol history position? := by
    intro symbol history position?
    unfold signal?
    simp only [withPosition_congr hagree]
  unfold signals
  simp only [hsignal]

/-- The signals are in ascending order of their symbols. -/
theorem pairwise_symbol (desk : Desk) (program : Program) (series : Keyed Series)
    (positions : Keyed Position) :
    (desk.signals program series positions).1.Pairwise
      fun earlier later => earlier.symbol < later.symbol := by
  rw [fst_signals, List.pairwise_filterMap]
  refine series.ascending.imp fun hless signal hsignal signal' hsignal' => ?_
  rw [(decided_of_decided? hsignal).1, (decided_of_decided? hsignal').1]
  exact hless

/-- Of the signals for other symbols, none is about this one. -/
theorem filter_decided? (desk : Desk) (program : Program) (name symbol : String)
    (history : Series) (position? : Option Position) :
    (desk.decided? program name history position?).filter (·.symbol == symbol) =
      if name = symbol then desk.decided? program name history position? else none := by
  cases hsignal : desk.decided? program name history position? with
  | none => simp
  | some signal => simp [Option.filter_some, (decided_of_decided? hsignal).1]

/-- The signals of one symbol need only what is held under it. -/
theorem filter_signals (desk : Desk) (program : Program) (series : Keyed Series)
    (positions : Keyed Position) (symbol : String) :
    (desk.signals program series positions).1.filter (·.symbol == symbol) =
      (desk.signals program (series.only symbol) (positions.only symbol)).1 := by
  rw [fst_signals, fst_signals, List.filter_filterMap, Keyed.entries_only, List.filterMap_filter]
  apply List.filterMap_congr
  intro entry _
  rw [filter_decided?, Keyed.get?_only]
  by_cases hsame : entry.1 = symbol
  · simp [hsame]
  · simp [hsame]

/-- What is held under other symbols has no part in the signals of a symbol. -/
theorem filter_signals_congr (desk : Desk) (program : Program) {series series' : Keyed Series}
    {positions positions' : Keyed Position} {symbol : String}
    (hseries : series.get? symbol = series'.get? symbol)
    (hpositions : positions.get? symbol = positions'.get? symbol) :
    (desk.signals program series positions).1.filter (·.symbol == symbol) =
      (desk.signals program series' positions').1.filter (·.symbol == symbol) := by
  rw [filter_signals, filter_signals, Keyed.only_congr hseries, Keyed.only_congr hpositions]

/-- Every signal is decided on the candles and the position of its own symbol. -/
theorem decided_of_mem {desk : Desk} {program : Program} {series : Keyed Series}
    {positions : Keyed Position} {signal : Signal}
    (hsignal : signal ∈ (desk.signals program series positions).1) :
    ∃ history, series.get? signal.symbol = some history ∧
      signal.Decided desk history (positions.get? signal.symbol) := by
  rw [fst_signals] at hsignal
  obtain ⟨⟨symbol, history⟩, hentry, hdecided⟩ := List.mem_filterMap.1 hsignal
  obtain ⟨rfl, hpolicy⟩ := decided_of_decided? hdecided
  exact ⟨history, Keyed.get?_of_mem hentry, hpolicy⟩

/-- Signals stand in the order of their symbols, at most one for each. Those of a symbol are the
    ones there would be if its candles and its position were all there is, whatever is held under
    other symbols. They keep to the position, and what a program was given under the names for the
    position makes no difference. -/
theorem signals_isolated (desk : Desk) (program : Program) (series : Keyed Series)
    (positions : Keyed Position) :
    ((desk.signals program series positions).1.Pairwise
      fun earlier later => earlier.symbol < later.symbol) ∧
    (∀ symbol, (desk.signals program series positions).1.filter (·.symbol == symbol) =
      (desk.signals program (series.only symbol) (positions.only symbol)).1) ∧
    (∀ symbol (series' : Keyed Series) (positions' : Keyed Position),
      series.get? symbol = series'.get? symbol → positions.get? symbol = positions'.get? symbol →
        (desk.signals program series positions).1.filter (·.symbol == symbol) =
          (desk.signals program series' positions').1.filter (·.symbol == symbol)) ∧
    (∀ signal ∈ (desk.signals program series positions).1,
      ∃ history, series.get? signal.symbol = some history ∧
        signal.Decided desk history (positions.get? signal.symbol)) ∧
    ∀ bindings : Variables,
      (∀ name, name ∉ positionNames → bindings.get? name = desk.bindings.get? name) →
        { desk with bindings }.signals program series positions =
          desk.signals program series positions := by
  refine ⟨pairwise_symbol .., filter_signals desk program series positions, ?_,
    fun signal => decided_of_mem, fun bindings hagree => signals_congr hagree ..⟩
  intro symbol series' positions' hseries hpositions
  exact filter_signals_congr desk program hseries hpositions

/-- A sale of what is held of one symbol, which is there without the other symbol too, and also if a
    program is given another size of the position. -/
theorem signals_isolated_sale :
    let desk : Desk := {}
    let candle (time : Int) (price : Float) : Candle := ⟨time, price, price, price, price, 1⟩
    let series : Keyed Series := ⟨[("A", ⟨[candle 1 10], by decide⟩),
      ("B", ⟨[candle 1 20, candle 2 22], by decide⟩)], by decide⟩
    let positions : Keyed Position := ⟨[("B", ⟨"B", 3, .long, 20⟩)], by decide⟩
    let program : Program := .expression (.sell (.truth true))
    let bindings : Variables := Keyed.empty.put "position_size" (.number 7)
    (desk.signals program series positions).1 = [⟨"B", .sell, 3, 2⟩] ∧
      (desk.signals program (series.only "A") (positions.only "A")).1 = [] ∧
      (desk.signals program (series.only "B") (positions.only "B")).1 = [⟨"B", .sell, 3, 2⟩] ∧
      { desk with bindings }.signals program series positions =
        desk.signals program series positions := by
  intro desk candle series positions program bindings
  have hsignals : (desk.signals program series positions).1 = [⟨"B", .sell, 3, 2⟩] := rfl
  obtain ⟨-, honly, -, -, hbindings⟩ := signals_isolated desk program series positions
  refine ⟨hsignals, ?_, ?_, hbindings bindings fun name hname => ?_⟩
  · rw [← honly, hsignals]
    rfl
  · rw [← honly, hsignals]
    rfl
  · have hother : name ≠ "position_size" := fun hsame => hname (by simp [hsame, positionNames])
    simp [bindings, desk, hother]

end Desk

end Candlewick
