import Candlewick.Feed
import Mathlib.Data.List.Nodup
import Mathlib.Data.List.Perm.Basic

namespace Candlewick

/-- Two candles next to each other in a list that ascends are of one time or in order, so all that can
    be wrong with such a list is that a time comes twice. -/
theorem firstFault?_of_ascending {candles : List Candle}
    (hascending : candles.Pairwise (·.timestamp ≤ ·.timestamp)) (index : Nat) :
    (firstFault? index candles = none ∧ (candles.map Candle.timestamp).Nodup) ∨
      ∃ later timestamp,
        firstFault? index candles = some (.duplicateTimestamp later timestamp) ∧
        2 ≤ (candles.map Candle.timestamp).count timestamp := by
  induction candles generalizing index with
  | nil => exact .inl ⟨rfl, .nil⟩
  | cons previous rest ih =>
    cases rest with
    | nil => exact .inl ⟨rfl, List.nodup_singleton _⟩
    | cons current rest =>
      obtain ⟨hprevious, hrest⟩ := List.pairwise_cons.1 hascending
      have hnext := hprevious current List.mem_cons_self
      rw [firstFault?]
      by_cases hequal : current.timestamp = previous.timestamp
      · rw [if_pos hequal]
        refine .inr ⟨_, _, rfl, ?_⟩
        rw [List.map_cons, List.map_cons, hequal, List.count_cons_self, List.count_cons_self]
        omega
      · rw [if_neg hequal, if_neg (by omega)]
        rcases ih hrest (index + 1) with ⟨hnone, -⟩ | ⟨later, timestamp, hfault, hcount⟩
        · have hstrict := ascending_of_firstFault?_eq_none hnone
          have hall : (previous :: current :: rest).Pairwise (·.timestamp < ·.timestamp) := by
            refine List.pairwise_cons.2 ⟨fun candle hmem => ?_, hstrict⟩
            rcases List.mem_cons.1 hmem with rfl | hlater
            · omega
            · have := (List.pairwise_cons.1 hstrict).1 candle hlater
              omega
          refine .inl ⟨hnone, List.pairwise_map.2 (hall.imp fun h => ?_)⟩
          omega
        · refine .inr ⟨later, timestamp, hfault, Nat.le_trans hcount ?_⟩
          exact (List.sublist_cons_self _ _).count_le timestamp

namespace Feed

/-- A column of a record holds a number. -/
def HoldsNumber (fields : List String) (column : Nat) (value : Float) : Prop :=
  ∃ raw, fields[column]? = some raw ∧ Decimal.read (Text.trim raw) = .ok value

/-- A record stands for a candle: its time is in the first column, and the five numbers are in the
    next ones. -/
structure StandsFor (fields : List String) (candle : Candle) : Prop where
  timestamp : ∃ raw, fields[0]? = some raw ∧ Calendar.timestamp? raw = some candle.timestamp
  opening : HoldsNumber fields 1 candle.opening
  high : HoldsNumber fields 2 candle.high
  low : HoldsNumber fields 3 candle.low
  closing : HoldsNumber fields 4 candle.closing
  volume : HoldsNumber fields 5 candle.volume

/-- A field that holds a number is read as that number. -/
theorem number_of_holdsNumber {fields : List String} {column : Nat} {value : Float}
    (hholds : HoldsNumber fields column value) (name : String) :
    number fields column name = .ok value := by
  obtain ⟨raw, hraw, hread⟩ := hholds
  rw [number, hraw]
  simp only [hread]

/-- A record that stands for a candle is read as that candle. -/
theorem candle_of_standsFor {fields : List String} {candle : Candle}
    (hstands : StandsFor fields candle) (path : String) (row : Nat) :
    Feed.candle path row fields = .ok candle := by
  obtain ⟨raw, hraw, hread⟩ := hstands.timestamp
  have htimestamp : timestamp path row fields = .ok candle.timestamp := by
    rw [timestamp, hraw]
    simp only [hread]
  simp only [Feed.candle, htimestamp, number_of_holdsNumber hstands.opening,
    number_of_holdsNumber hstands.high, number_of_holdsNumber hstands.low,
    number_of_holdsNumber hstands.closing, number_of_holdsNumber hstands.volume]
  rfl

/-- Every row that stands for a candle is loaded, once and in its place. -/
theorem candles_of_standFor {rows : List (List String)} {loaded : List Candle}
    (hrows : List.Forall₂ StandsFor rows loaded) (path : String) (row : Nat) :
    candles path row (rows.map .ok) = .ok loaded := by
  induction hrows generalizing row with
  | nil => rfl
  | cons hfirst _ ih =>
    rw [List.map_cons, candles, candle_of_standsFor hfirst, ih]
    rfl

/-- Sorted candles are in ascending order of time. -/
theorem sorted_ascending (loaded : List Candle) :
    (sorted loaded).Pairwise (·.timestamp ≤ ·.timestamp) := by
  have hsorted : (sorted loaded).Pairwise fun a b =>
      decide (a.timestamp ≤ b.timestamp) = true := by
    refine List.pairwise_mergeSort (fun a b c hab hbc => ?_) (fun a b => ?_) loaded
    · simp only [decide_eq_true_eq] at hab hbc ⊢
      omega
    · simp only [Bool.or_eq_true, decide_eq_true_eq]
      omega
  exact hsorted.imp of_decide_eq_true

/-- Sorting neither drops nor adds a candle. -/
theorem sorted_perm (loaded : List Candle) : (sorted loaded).Perm loaded :=
  List.mergeSort_perm _ _

/-- Sorting does not change how often a time comes up. -/
theorem count_sorted (loaded : List Candle) (timestamp : Int) :
    ((sorted loaded).map Candle.timestamp).count timestamp =
      (loaded.map Candle.timestamp).count timestamp :=
  ((sorted_perm loaded).map _).count_eq timestamp

/-- What becomes of the candles of a file: a series of all of them if no time comes twice, and else a
    fault that names a time that does. -/
theorem ofCandles?_sorted (loaded : List Candle) :
    (∃ series, Series.ofCandles? (sorted loaded) = .ok series ∧ series.candles = sorted loaded ∧
      (loaded.map Candle.timestamp).Nodup) ∨
    ∃ index timestamp,
      Series.ofCandles? (sorted loaded) = .error (.duplicateTimestamp index timestamp) ∧
      2 ≤ (loaded.map Candle.timestamp).count timestamp := by
  rcases firstFault?_of_ascending (sorted_ascending loaded) 0 with
    ⟨hnone, hnodup⟩ | ⟨index, timestamp, hfault, hcount⟩
  · refine .inl ⟨⟨sorted loaded, ascending_of_firstFault?_eq_none hnone⟩, ?_, rfl, ?_⟩
    · unfold Series.ofCandles?
      split
      · rename_i hfault
        cases hnone.symm.trans hfault
      · rfl
    · exact ((sorted_perm loaded).map _).nodup_iff.1 hnodup
  · refine .inr ⟨index, timestamp, ?_, count_sorted loaded timestamp ▸ hcount⟩
    unfold Series.ofCandles?
    split
    · rename_i hagain
      cases hfault.symm.trans hagain
      rfl
    · rename_i hnone
      cases hfault.symm.trans hnone

/-- Candles of different times are sorted alike, however they are arranged. -/
theorem sorted_eq_of_perm {one other : List Candle} (hperm : one.Perm other)
    (hnodup : (one.map Candle.timestamp).Nodup) : sorted one = sorted other := by
  refine List.Perm.eq_of_pairwise ?_ (sorted_ascending one) (sorted_ascending other)
    ((sorted_perm one).trans (hperm.trans (sorted_perm other).symm))
  intro a b hone hother hab hba
  have hb : b ∈ one := hperm.mem_iff.2 ((sorted_perm other).mem_iff.1 hother)
  exact List.inj_on_of_nodup_map hnodup ((sorted_perm one).mem_iff.1 hone) hb (by omega)

/-- The series of a file whose rows stand for candles. -/
theorem series_eq {path content : String} {rows : List (List String)} {loaded : List Candle}
    (hrecords : (Csv.records content).tail = rows.map .ok)
    (hrows : List.Forall₂ StandsFor rows loaded) :
    series path content =
      match Series.ofCandles? (sorted loaded) with
      | .ok series => .ok series
      | .error fault => .error (.series fault) := by
  have hread : candles path 1 (Csv.records content).tail = .ok loaded := by
    rw [hrecords, candles_of_standFor hrows]
  unfold series
  split
  · rename_i hfault
    cases hread.symm.trans hfault
  · rename_i hsome
    cases hread.symm.trans hsome
    rfl

/-- No file is refused because its candles are out of order. -/
theorem series_ne_outOfOrder (path content : String) (index : Nat) (previous current : Int) :
    series path content ≠ .error (.series (.outOfOrder index previous current)) := by
  intro hseries
  unfold series at hseries
  split at hseries
  · cases hseries
  · rename_i loaded _
    rcases ofCandles?_sorted loaded with ⟨series, hok, -⟩ | ⟨later, timestamp, hfault, -⟩
    · rw [hok] at hseries
      cases hseries
    · rw [hfault] at hseries
      cases hseries

end Feed

open Feed

/-- Candles are loaded whatever the order of their rows. If each row behind the header stands for a
    candle and no two of them are of one time, then the series has these candles and no others, in
    ascending order of time, and every file with the same rows in another order has the same series.
    Two rows of one time are refused for just that, and no file is ever refused for its order. -/
theorem loading_ignores_row_order {path content : String} {rows : List (List String)}
    {loaded : List Candle} (hrecords : (Csv.records content).tail = rows.map .ok)
    (hrows : List.Forall₂ StandsFor rows loaded) :
    ((loaded.map Candle.timestamp).Nodup → ∃ series, Feed.series path content = .ok series ∧
      series.candles.Perm loaded ∧ series.candles.Pairwise (·.timestamp < ·.timestamp) ∧
      ∀ (path' content' : String) (rows' : List (List String)),
        (Csv.records content').tail = rows'.map .ok → rows'.Perm rows →
        Feed.series path' content' = .ok series) ∧
    (¬ (loaded.map Candle.timestamp).Nodup → ∃ index timestamp,
      Feed.series path content = .error (.series (.duplicateTimestamp index timestamp)) ∧
      2 ≤ (loaded.map Candle.timestamp).count timestamp) ∧
    ∀ path content index previous current,
      Feed.series path content ≠ .error (.series (.outOfOrder index previous current)) := by
  refine ⟨fun hnodup => ?_, fun hduplicate => ?_, series_ne_outOfOrder⟩
  · rcases ofCandles?_sorted loaded with ⟨series, hok, hcandles, -⟩ | ⟨_, timestamp, -, hcount⟩
    · refine ⟨series, by rw [series_eq hrecords hrows, hok], hcandles ▸ sorted_perm loaded,
        series.ascending, fun path' content' rows' hrecords' hperm => ?_⟩
      obtain ⟨loaded', hrows', hloaded⟩ := List.perm_comp_forall₂ hperm hrows
      rw [series_eq hrecords' hrows', ← sorted_eq_of_perm hloaded.symm hnodup, hok]
    · have := List.nodup_iff_count_le_one.1 hnodup timestamp
      omega
  · rcases ofCandles?_sorted loaded with ⟨-, -, -, hnodup⟩ | ⟨index, timestamp, hfault, hcount⟩
    · exact absurd hnodup hduplicate
    · exact ⟨index, timestamp, by rw [series_eq hrecords hrows, hfault], hcount⟩

/-- Two rows in descending order of time, the later one with its time written as a date. -/
theorem loading_ignores_row_order_two_rows :
    let content := "timestamp,open,high,low,close,volume\n1970-01-02,3,4,2,3,10\n0,1,2,1,2,5\n"
    let rows := [["1970-01-02", "3", "4", "2", "3", "10"], ["0", "1", "2", "1", "2", "5"]]
    let loaded : List Candle := [⟨86400000, 3, 4, 2, 3, 10⟩, ⟨0, 1, 2, 1, 2, 5⟩]
    (Csv.records content).tail = rows.map .ok ∧ List.Forall₂ StandsFor rows loaded ∧
      (loaded.map Candle.timestamp).Nodup ∧
      (∃ series, Feed.series "BTC.csv" content = .ok series ∧ series.candles.Perm loaded ∧
        series.candles.Pairwise (·.timestamp < ·.timestamp) ∧
        ∀ (path' content' : String) (rows' : List (List String)),
          (Csv.records content').tail = rows'.map .ok → rows'.Perm rows →
          Feed.series path' content' = .ok series) ∧
      ∀ path content index previous current,
        Feed.series path content ≠ .error (.series (.outOfOrder index previous current)) := by
  intro content rows loaded
  have hrecords : (Csv.records content).tail = rows.map .ok := by
    decide +kernel
  have hrows : List.Forall₂ StandsFor rows loaded := by
    refine .cons ?_ (.cons ?_ .nil)
    all_goals
      refine ⟨⟨_, rfl, ?_⟩, ⟨_, rfl, ?_⟩, ⟨_, rfl, ?_⟩, ⟨_, rfl, ?_⟩, ⟨_, rfl, ?_⟩, ⟨_, rfl, ?_⟩⟩
      all_goals decide +kernel
  have hnodup : (loaded.map Candle.timestamp).Nodup := by decide
  obtain ⟨hdistinct, -, hordered⟩ := @loading_ignores_row_order "BTC.csv" content rows loaded
    hrecords hrows
  exact ⟨hrecords, hrows, hnodup, hdistinct hnodup, hordered⟩

end Candlewick
