import Candlewick.Proofs.Evaluation.Frame
import Candlewick.Proofs.Indicator.Online

namespace Candlewick

open Evaluation

/-- Every study only looks back. -/
theorem Study.online (study : Study) (period : Nat) :
    Indicator.Online fun values => study.entries values period := by
  cases study with
  | sma => exact .sma period
  | ema => exact .ema period
  | wma => exact .wma period
  | rsi => exact .rsi period
  | stdev => exact .stdev period
  | roc => exact .roc period

namespace Evaluation

theorem outcome_settle {α : Type} (outcome : Except EvalFault α) (moment : Moment) :
    (settle outcome).outcome moment = (outcome, moment) := by
  cases outcome <;> rfl

theorem outcome_candle {series : Series} {moment : Moment}
    (hindex : moment.index < series.length) :
    (candle series).outcome moment = (.ok series.candles[moment.index], moment) := by
  have hget : series.get? moment.index = some series.candles[moment.index] :=
    List.getElem?_eq_getElem hindex
  have hlook : index.outcome moment = (.ok moment.index, moment) := rfl
  simp only [candle, outcome_bind, hlook, hget]
  rfl

/-- Without a present candle there is a fault. -/
theorem outcome_candle_of_le {series : Series} {moment : Moment}
    (hindex : series.length ≤ moment.index) :
    (candle series).outcome moment = (.error (.noCandle moment.index), moment) := by
  have hnone : series.get? moment.index = none := List.getElem?_eq_none hindex
  have hlook : index.outcome moment = (.ok moment.index, moment) := rfl
  simp only [candle, outcome_bind, hlook, hnone]
  rfl

theorem outcome_history {series : Series} {moment : Moment}
    (hindex : moment.index < series.length) :
    (history series).outcome moment = (.ok (series.history moment.index), moment) := by
  have hlook : index.outcome moment = (.ok moment.index, moment) := rfl
  simp only [history, outcome_bind, outcome_candle hindex, hlook]
  rfl

end Evaluation

theorem outcome_evaluate_price {series : Series} {moment : Moment} (field : PriceField)
    (hindex : moment.index < series.length) :
    (evaluate series (.price field)).outcome moment =
      (.ok (.number (series.candles[moment.index].field field)), moment) := by
  rw [evaluate, outcome_bind, outcome_candle hindex]
  rfl

namespace Call

/-- The entries of an indicator over candles: those of a study over one of their fields, and those of
    the average range over the candles themselves. Other functions have none. -/
def entries? (builtin : Builtin) (field : PriceField) (candles : List Candle) (period : Nat) :
    Option (List (Option Float)) :=
  match builtin with
  | .study study => some (study.entries (fieldValues candles field) period)
  | .averageRange => some (Indicator.atr candles period)
  | .pairing _ | .abs => none

/-- What a call gives for an entry of its indicator: the number, if the entry is there and is one. -/
def ofEntry (callee : String) (index : Nat) (entry : Option Float) : Except EvalFault Value :=
  match entry with
  | some number =>
    if number.isNaN then .error (.insufficientHistory callee index) else .ok (.number number)
  | none => .error (.insufficientHistory callee index)

/-- The entry for the present candle is the last one. -/
theorem outcome_latestEntry {callee : String} {entries : List (Option Float)} {entry : Option Float}
    (hlast : entries.getLast? = some entry) (moment : Moment) :
    (latestEntry callee entries).outcome moment = (ofEntry callee moment.index entry, moment) := by
  unfold latestEntry ofEntry
  rw [hlast]
  cases entry with
  | none => rfl
  | some number =>
    dsimp only
    split <;> rfl

/-- An entry that is missing, or is no number, counts as a lack of history. -/
theorem ofEntry_eq_error_iff {callee : String} {index : Nat} {entry : Option Float} :
    ofEntry callee index entry = .error (.insufficientHistory callee index) ↔
      entry.all Float.isNaN = true := by
  cases entry with
  | none => simp [ofEntry]
  | some number => simp [ofEntry]

/-- Over the candles up to an index an indicator ends with the entry that it has at the index over all
    candles. -/
theorem exists_entry {builtin : Builtin} {field : PriceField} {series : Series}
    {period index : Nat} {entries : List (Option Float)}
    (hentries : entries? builtin field series.candles period = some entries)
    (hindex : index < series.length) :
    ∃ front entry, entries? builtin field (series.history index) period = some front ∧
      front.getLast? = some entry ∧ entries[index]? = some entry := by
  cases builtin with
  | study study =>
    cases hentries
    have hlength : index < (fieldValues series.candles field).length := by
      rw [fieldValues, List.length_map]
      exact hindex
    obtain ⟨entry, hlast, hentry⟩ := (study.online period).exists_entry hlength
    have hfront : fieldValues (series.history index) field =
        (fieldValues series.candles field).take (index + 1) := List.map_take
    exact ⟨_, entry, rfl, by rw [hfront]; exact hlast, hentry⟩
  | averageRange =>
    cases hentries
    obtain ⟨entry, hlast, hentry⟩ := (Indicator.Online.atr period).exists_entry hindex
    exact ⟨_, entry, rfl, hlast, hentry⟩
  | pairing | abs => cases hentries

/-- A call of an indicator comes to the last entry over the candles up to the present one. -/
theorem outcome_call {series : Series} {callee : String} {builtin : Builtin} {field : PriceField}
    {length : Node} {start later : Moment} {value : Value} {period : Nat}
    {front : List (Option Float)} {entry : Option Float}
    (hname : Builtin.ofName? callee = some builtin) (hindex : start.index < series.length)
    (hlength : (evaluate series length).outcome start = (.ok value, later))
    (hperiod : Call.period callee value = .ok period)
    (hfront : entries? builtin field (series.history start.index) period = some front)
    (hlast : front.getLast? = some entry) :
    (evaluate series (.call callee [.price field, length])).outcome start =
      (ofEntry callee start.index entry, later) := by
  have hback : later.index = start.index := by
    have hmoved := evaluate_moved series length start
    rw [hlength] at hmoved
    exact hmoved.index_first
  have hhistory : (history series).outcome later = (.ok (series.history start.index), later) := by
    rw [← hback]
    exact outcome_history (by rw [hback]; exact hindex)
  have hsource := outcome_evaluate_price field hindex
  rw [evaluate, call, hname]
  simp only [evaluateArguments]
  cases builtin with
  | study study =>
    cases hfront
    simp only [apply, sourceField, outcome_bind, outcome_settle, hlength, hperiod, hhistory,
      outcome_latestEntry hlast, hback]
  | averageRange =>
    cases hfront
    simp only [apply, outcome_bind, hsource, outcome_settle, hlength, hperiod, hhistory,
      outcome_latestEntry hlast, hback]
  | pairing | abs => cases hfront

end Call

/-- The entries of every indicator over the first values of a list, or over the first candles, are
    its first entries over the whole list, for every period. So a call at an index of a series comes
    to the entry that its indicator has there over the whole series, and to a lack of history exactly
    if that entry is undefined or not a number. -/
theorem indicators_look_back :
    (∀ (study : Study) (period : Nat),
      Indicator.Online fun values => study.entries values period) ∧
    (∀ period : Nat, Indicator.Online fun candles => Indicator.atr candles period) ∧
    ∀ (series : Series) (callee : String) (builtin : Builtin) (field : PriceField) (length : Node)
      (start later : Moment) (value : Value) (period : Nat) (entries : List (Option Float)),
      Builtin.ofName? callee = some builtin →
      Call.entries? builtin field series.candles period = some entries →
      start.index < series.length →
      (evaluate series length).outcome start = (.ok value, later) →
      Call.period callee value = .ok period →
      ∃ entry, entries[start.index]? = some entry ∧
        (evaluate series (.call callee [.price field, length])).outcome start =
          (Call.ofEntry callee start.index entry, later) ∧
        (Call.ofEntry callee start.index entry = .error (.insufficientHistory callee start.index) ↔
          entry.all Float.isNaN = true) := by
  refine ⟨Study.online, Indicator.Online.atr, ?_⟩
  intro series callee builtin field length start later value period entries hname hentries hindex
    hlength hperiod
  obtain ⟨front, entry, hfront, hlast, hentry⟩ := Call.exists_entry hentries hindex
  exact ⟨entry, hentry, Call.outcome_call hname hindex hlength hperiod hfront hlast,
    Call.ofEntry_eq_error_iff⟩

/-- The average of two closes, at the second of three candles: the third one has no part in it. -/
theorem indicators_look_back_before_third_candle :
    let series : Series :=
      ⟨[⟨1, 7, 7, 7, 10, 1⟩, ⟨2, 8, 8, 8, 12, 1⟩, ⟨3, 8, 8, 8, 20, 1⟩], by decide⟩
    let start : Moment := ⟨∅, 1⟩
    Builtin.ofName? "ta.sma" = some (.study .sma) ∧ start.index < series.length ∧
      (evaluate series (.number 2)).outcome start = (.ok (.number 2), start) ∧
      Call.period "ta.sma" (.number 2) = .ok 2 ∧
      Call.entries? (.study .sma) .closing series.candles 2 =
        some [none, some 11, some 16] ∧
      (evaluate series (.call "ta.sma" [.price .closing, .number 2])).outcome start =
        (.ok (.number 11), start) := by
  intro series start
  have hname : Builtin.ofName? "ta.sma" = some (.study .sma) := by decide
  have hperiod : Call.period "ta.sma" (.number 2) = .ok 2 := by rfl
  have hentries : Call.entries? (.study .sma) .closing series.candles 2 =
      some [none, some 11, some 16] := by rfl
  have hindex : start.index < series.length := by decide
  obtain ⟨entry, hentry, houtcome, -⟩ := indicators_look_back.2.2 series "ta.sma" (.study .sma)
    .closing (.number 2) start start (.number 2) 2 [none, some 11, some 16] hname hentries hindex
    rfl hperiod
  have heleven : some 11 = entry := Option.some.inj hentry
  refine ⟨hname, hindex, rfl, hperiod, hentries, ?_⟩
  rw [houtcome, ← heleven]
  rfl

end Candlewick
