import Candlewick.Proofs.Backtest.Live
import Candlewick.Proofs.Evaluation.NoLookahead

namespace Candlewick

theorem Series.get?_truncate (series : Series) {index count : Nat} (hindex : index < count) :
    (series.truncate count).get? index = series.get? index := by
  rw [Series.get?, Series.get?, Series.truncate, List.getElem?_take_of_lt hindex]

namespace Backtest

/-- A backtest that goes on with another one. -/
def followedBy (early later : Backtest) : Backtest :=
  { later with steps := early.steps ++ later.steps }

variable {program : Program}

/-- A run over two stretches of candles is a run over the first one, followed by a run over the
    second one with the variables that are left. -/
theorem runFrom_append (series : Series) (front back : List Candle) (index : Nat)
    (bindings : Variables) :
    runFrom program series (fun _ => false) index bindings (front ++ back) =
      let early := runFrom program series (fun _ => false) index bindings front
      early.followedBy
        (runFrom program series (fun _ => false) (index + front.length) early.bindings back) := by
  induction front generalizing index bindings with
  | nil => rfl
  | cons candle front ih =>
    have hlength : index + (candle :: front).length = index + 1 + front.length := by
      rw [List.length_cons]
      omega
    rw [hlength, List.cons_append]
    simp only [runFrom, Bool.false_eq_true, if_false, ih]
    rfl

/-- Runs over the same candles go the same way if the series agree as far as they go. -/
theorem runFrom_congr {first second : Series} (candles : List Candle) (index : Nat)
    (bindings : Variables)
    (hsame : ∀ last < index + candles.length, first.SameUpTo last second) :
    runFrom program first (fun _ => false) index bindings candles =
      runFrom program second (fun _ => false) index bindings candles := by
  induction candles generalizing index bindings with
  | nil => rfl
  | cons candle rest ih =>
    rw [List.length_cons] at hsame
    have hstart : first.SameUpTo (Moment.mk bindings index).index second := hsame index (by omega)
    have hprogram := outcome_evaluateProgram_eq hstart program
    have hrest := fun bindings => ih (index + 1) bindings fun last hlast => hsame last (by omega)
    simp only [runFrom, Bool.false_eq_true, if_false, hprogram, hrest]

/-- A run over the whole series is the run over its first candles, followed by a run that starts with
    the variables that this one has left. -/
theorem run_eq_followedBy (series : Series) (bindings : Variables) {count : Nat}
    (hcount : count ≤ series.length) :
    run program series bindings =
      let front := run program (series.truncate count) bindings
      front.followedBy
        (runFrom program series (fun _ => false) count front.bindings
          (series.candles.drop count)) := by
  have hlength : (series.candles.take count).length = count :=
    List.length_take_of_le hcount
  have hsame : ∀ last < 0 + (series.candles.take count).length,
      series.SameUpTo last (series.truncate count) := by
    intro last hlast index hindex
    exact (series.get?_truncate (by omega)).symm
  have hfront : runFrom program series (fun _ => false) 0 bindings (series.candles.take count) =
      run program (series.truncate count) bindings :=
    runFrom_congr _ 0 bindings hsame
  have hwhole : run program series bindings = runFrom program series (fun _ => false) 0 bindings
      (series.candles.take count ++ series.candles.drop count) := by
    rw [List.take_append_drop, run]
  rw [hwhole, runFrom_append, hfront, hlength, Nat.zero_add]

theorem length_steps_run (series : Series) (bindings : Variables) :
    (run program series bindings).steps.length = series.length := by
  apply Nat.le_antisymm
  · rw [← List.getElem?_eq_none_iff, getElem?_steps_run, Option.map_eq_none_iff]
    exact List.getElem?_eq_none_iff.2 (Nat.le_refl _)
  · rw [Series.length, ← List.getElem?_eq_none_iff]
    have hnone := getElem?_steps_run program series bindings
      (run program series bindings).steps.length
    rw [List.getElem?_eq_none_iff.2 (Nat.le_refl _), eq_comm, Option.map_eq_none_iff] at hnone
    exact hnone

/-- The backtest over the first candles of a series is how the backtest over the series begins. It
    has a step for each of these candles, with its index and its timestamp, and the steps are those
    of the longer run. That one goes on, at the next candle if there is one, with the variables that
    the shorter run has left, and ends with these if there is none. -/
theorem run_truncate (program : Program) (series : Series) (bindings : Variables) {count : Nat}
    (hcount : count ≤ series.length) :
    let front := run program (series.truncate count) bindings
    let whole := run program series bindings
    front.steps.length = count ∧
    front.steps = whole.steps.take count ∧
    (∀ index candle, index < count → series.get? index = some candle →
      ∃ outcome, front.steps[index]? = some ⟨index, candle.timestamp, outcome⟩) ∧
    whole = front.followedBy
      (runFrom program series (fun _ => false) count front.bindings (series.candles.drop count)) ∧
    (∀ candle, series.get? count = some candle → whole.steps[count]? =
      some ⟨count, candle.timestamp,
        ((evaluateProgram series program).outcome ⟨front.bindings, count⟩).1⟩) ∧
    (count = series.length → whole.bindings = front.bindings) := by
  intro front whole
  have hwhole : whole = front.followedBy
      (runFrom program series (fun _ => false) count front.bindings (series.candles.drop count)) :=
    run_eq_followedBy series bindings hcount
  have hlength : front.steps.length = count := by
    rw [length_steps_run, Series.length, Series.truncate, List.length_take_of_le hcount]
  refine ⟨hlength, ?_, ?_, hwhole, ?_, ?_⟩
  · rw [hwhole, followedBy, List.take_left' hlength]
  · intro index candle hindex hcandle
    have hfront := (series.get?_truncate hindex).trans hcandle
    exact ⟨_, by rw [getElem?_steps_run, hfront, Option.map_some]⟩
  · intro candle hcandle
    have hfirst : (series.candles.drop count)[0]? = some candle := by
      rw [List.getElem?_drop]
      exact hcandle
    rw [hwhole, followedBy, List.getElem?_append_right (Nat.le_of_eq hlength), hlength,
      Nat.sub_self, getElem?_steps_runFrom, hfirst]
    rfl
  · intro hall
    rw [hwhole, List.drop_of_length_le (Nat.le_of_eq hall.symm)]
    rfl

/-- A program that counts its steps before it fails, for none of the first two candles has two others
    before it: both steps are skipped, and the third one goes on with what they have counted. -/
theorem run_truncate_failing :
    let program : Program := .sequence
      [.assign "n" (.binary .add (.name "n") (.number 1)), .past (.price .closing) (.number 2)]
    let series : Series := ⟨[⟨1, 7, 7, 7, 7, 1⟩, ⟨2, 8, 8, 8, 8, 1⟩, ⟨3, 9, 9, 9, 9, 1⟩], by decide⟩
    let bindings : Variables := .ofList [("n", .number 0)]
    let front := run program (series.truncate 2) bindings
    let whole := run program series bindings
    2 ≤ series.length ∧ series.get? 2 = some ⟨3, 9, 9, 9, 9, 1⟩ ∧ front.steps.length = 2 ∧
      front.steps = whole.steps.take 2 ∧ whole.steps[2]? =
        some ⟨2, 3, ((evaluateProgram series program).outcome ⟨front.bindings, 2⟩).1⟩ := by
  intro program series bindings front whole
  have hcount : 2 ≤ series.length := by decide
  have hcandle : series.get? 2 = some ⟨3, 9, 9, 9, 9, 1⟩ := rfl
  obtain ⟨hlength, hsteps, -, -, hnext, -⟩ := run_truncate program series bindings hcount
  exact ⟨hcount, hcandle, hlength, hsteps, hnext _ hcandle⟩

end Backtest

end Candlewick
