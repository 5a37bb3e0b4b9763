import Candlewick.Proofs.Indicator.Machine.Averages

namespace Candlewick.Indicator.Machine

open Quantity

variable {α β γ : Type} [Quantity α]

/-- A place from `period` on has a value `period` places before it. -/
theorem gives_rateAt {values : List α} {period index : Nat} (hfull : period ≤ index)
    (hindex : index < values.length) :
    Gives (rateAt values period index)
      (rate (values.getD (index - period) (whole 0)) (values.getD index (whole 0)))
      (isUndefined (rate (values.getD (index - period) (whole 0)) (values.getD index (whole 0))) =
        false) := by
  have hread {place : Nat} (hplace : place < values.length) :
      Gives (read values place : Machine α α) (values.getD place (whole 0)) True :=
    gives_read (by rw [List.getD_eq_getElem?_getD, List.getElem?_eq_getElem hplace, Option.getD_some])
  refine Gives.step (gives_minus hfull) (.step (hread (by omega)) ?_)
  rw [rate]
  split
  · exact gives_keep _
  · exact .step (hread hindex) (.step (gives_keep _) (.step (gives_keep _) (gives_keep _)))

/-- The rates by their places. -/
theorem zipWith_rate_eq (values : List α) (period : Nat) :
    List.zipWith rate values (values.drop period) =
      (List.range' period (values.length - period)).map fun index =>
        rate (values.getD (index - period) (whole 0)) (values.getD index (whole 0)) := by
  apply List.ext_getElem?
  intro place
  by_cases hplace : place < values.length - period
  · rw [List.getElem?_zipWith, List.getElem?_drop, List.getElem?_map, List.getElem?_range' hplace,
      List.getElem?_eq_getElem (by omega), List.getElem?_eq_getElem (by omega), Option.map_some,
      Nat.one_mul, Nat.add_sub_cancel_left, List.getD_eq_getElem?_getD, List.getD_eq_getElem?_getD,
      List.getElem?_eq_getElem (by omega), List.getElem?_eq_getElem (by omega)]
    rfl
  · rw [List.getElem?_eq_none, List.getElem?_eq_none]
    · rw [List.length_map, List.length_range']
      omega
    · rw [List.length_zipWith, List.length_drop]
      omega

/-- The rate of change takes the value a period before, which is there for every entry that it
    computes. -/
theorem gives_roc (values : List α) (period : Nat) :
    Gives (roc values period) (Indicator.roc values period)
      (0 < period → SettledFrom period (Indicator.roc values period)) := by
  by_cases hzero : period = 0
  · rw [roc, if_pos hzero, Indicator.roc, if_pos hzero]
    exact gives_undefined fun hperiod => absurd hzero (Nat.ne_of_gt hperiod)
  · have hblank : values.length - min period values.length = values.length - period := by omega
    rw [roc, if_neg hzero, Indicator.roc, if_neg hzero, zipWith_rate_eq,
      undefined_eq_append (Nat.min_le_right period values.length), hblank]
    refine Gives.imp (gives_fill ?_ ?_ fun index hmem => ?_) fun hdefined _ =>
      settledFrom_append ?_ hdefined
    · rw [List.length_replicate, List.length_range']
    · intro place index hindex
      have hplace : place < values.length - period := by
        have hlength := (List.getElem?_eq_some_iff.1 hindex).1
        rwa [List.length_range'] at hlength
      rw [List.getElem?_range' hplace, Nat.one_mul] at hindex
      cases hindex
      rw [List.length_replicate, Nat.min_eq_left (by omega)]
      exact gives_pure _
    · obtain ⟨place, hplace, rfl⟩ := List.mem_range'.1 hmem
      exact gives_rateAt (by omega) (by omega)
    · rw [List.length_replicate]
      exact Nat.min_le_left _ _

/-- The gain and the loss between two values. -/
def parts (previous current : α) : α × α :=
  (positivePart (current - previous), positivePart (-(current - previous)))

theorem gives_move (previous current : α) :
    Gives (move [previous, current]) (parts previous current) True :=
  .step (gives_read rfl) (.step (gives_read rfl) (.step (gives_keep _) (.step (gives_keep _)
    (.step (gives_keep _) (.step (gives_keep _) (gives_pure _))))))

theorem gives_trueRange (previous current : Candle) :
    Gives (trueRange [previous, current]) (current.trueRange previous.closing) True :=
  .step (gives_read rfl) (.step (gives_read rfl) (.step (gives_keep _) (.step (gives_keep _)
    (.step (gives_keep _) ((gives_keep _).imp fun _ => trivial)))))

/-- The windows of two values are the pairs of neighbours. -/
theorem fullWindows_two (values : List β) :
    fullWindows 2 values = steps (fun previous current => [previous, current]) values := by
  induction values with
  | nil => rfl
  | cons first rest ih =>
    cases rest with
    | nil => rfl
    | cons second rest => rw [steps_cons_cons, ← ih]; rfl

/-- A computation on pairs of neighbours, for each pair. -/
theorem gives_mapM_pairs {f : List β → Machine α γ} {g : β → β → γ}
    (hf : ∀ previous current, Gives (f [previous, current]) (g previous current) True)
    (values : List β) :
    Gives ((fullWindows 2 values).mapM f) (steps g values) True := by
  rw [fullWindows_two]
  induction values with
  | nil => exact gives_pure []
  | cons first rest ih =>
    cases rest with
    | nil => exact gives_pure []
    | cons second rest =>
      rw [steps_cons_cons, steps_cons_cons, List.mapM_cons]
      exact .step (hf first second) (.step ih (gives_pure _))

theorem map_steps {δ : Type} (g : β → β → γ) (h : γ → δ) (values : List β) :
    (steps g values).map h = steps (fun previous current => h (g previous current)) values :=
  List.map_zipWith

/-- The strength of two averages that stand at the same place. -/
def strengthAt (averages : Option α × Option α) : Option α := do
  Indicator.strength (← averages.1) (← averages.2)

/-- The strength of two averages that are there. -/
theorem gives_strength_of_averages (gain loss : α) :
    Gives (strength (some gain, some loss)) (Indicator.strength gain loss)
      (isUndefined gain = false → isUndefined loss = false →
        ∃ x, Indicator.strength gain loss = some x ∧ isUndefined x = false) := by
  rw [strength, Indicator.strength]
  split
  · rename_i hundefined
    refine (gives_pure none).imp fun _ hgain hloss => ?_
    rw [hgain, hloss] at hundefined
    cases hundefined
  · split
    · refine Gives.imp (.bind (gives_keep _) (gives_pure _)) ?_
      exact fun hsettled _ _ => ⟨_, rfl, hsettled.1⟩
    · refine Gives.imp (.step (gives_keep _) (.step (gives_keep _) (.step (gives_keep _)
        (.bind (gives_keep _) (gives_pure _))))) ?_
      exact fun hsettled _ _ => ⟨_, rfl, hsettled.1⟩

/-- A strength is a number where the two averages are numbers. -/
theorem gives_strength (averages : Option α × Option α) :
    Gives (strength averages) (strengthAt averages)
      (∀ gain loss, averages = (some gain, some loss) → isUndefined gain = false →
        isUndefined loss = false →
        ∃ x, Indicator.strength gain loss = some x ∧ isUndefined x = false) := by
  match averages with
  | (none, _) => exact (gives_pure none).imp fun _ => nofun
  | (some _, none) => exact (gives_pure none).imp fun _ => nofun
  | (some gain, some loss) =>
    refine (gives_strength_of_averages gain loss).imp fun hdefined gain' loss' heq => ?_
    cases heq
    exact hdefined

/-- The strengths of changes come from two moving averages, that of the gains and that of the
    losses. -/
theorem strengths_eq (period : Nat) (changes : List α) :
    strengths period changes =
      ((Indicator.sma (changes.map positivePart) period).zip
        (Indicator.sma (changes.map fun change => positivePart (-change)) period)).map strengthAt := by
  rw [strengths, List.zip, List.map_zipWith]
  rfl

/-- Where both averages are numbers, the strength is one. -/
theorem settledFrom_strengths {place : Nat} {gains losses : List (Option α)}
    (hgains : SettledFrom place gains) (hlosses : SettledFrom place losses)
    (hstrength : ∀ averages ∈ gains.zip losses, ∀ gain loss, averages = (some gain, some loss) →
      isUndefined gain = false → isUndefined loss = false →
      ∃ x, Indicator.strength gain loss = some x ∧ isUndefined x = false) :
    SettledFrom place ((gains.zip losses).map strengthAt) := by
  intro index hindex hplace
  rw [List.length_map, List.length_zip] at hindex
  obtain ⟨gain, hgain, hgain'⟩ := hgains index (by omega) hplace
  obtain ⟨loss, hloss, hloss'⟩ := hlosses index (by omega) hplace
  have hpair : (gains.zip losses)[index]? = some (some gain, some loss) :=
    List.getElem?_zip_eq_some.2 ⟨hgain, hloss⟩
  obtain ⟨x, hx, hdefined⟩ :=
    hstrength _ (List.mem_of_getElem? hpair) gain loss rfl hgain' hloss'
  refine ⟨x, ?_, hdefined⟩
  rw [List.getElem?_map, hpair, ← hx]
  rfl

/-- The relative strength runs to its end and is that of the definition. -/
theorem gives_rsi {values : List α} (hlimit : values.length < wordLimit) (period : Nat) :
    Gives (rsi values period) (Indicator.rsi values period)
      (0 < period → SettledFrom period (Indicator.rsi values period)) := by
  by_cases hnone : period = 0 ∨ values.length ≤ period
  · rw [rsi, if_pos hnone, rsi_eq_undefined hnone]
    exact gives_undefined (by omega)
  · obtain ⟨first, rest, rfl⟩ := List.exists_cons_of_length_pos (show 0 < values.length by omega)
    have hlength (part : α × α → α) : ((steps parts (first :: rest)).map part).length < wordLimit := by
      rw [List.length_map, length_steps]
      omega
    have hgains : (steps (fun previous current : α => current - previous) (first :: rest)).map
        positivePart = (steps parts (first :: rest)).map Prod.fst := by
      rw [map_steps, map_steps]
      rfl
    have hlosses : ((steps (fun previous current : α => current - previous) (first :: rest)).map
        fun change => positivePart (-change)) = (steps parts (first :: rest)).map Prod.snd := by
      rw [map_steps, map_steps]
      rfl
    rw [rsi, if_neg hnone, rsi_eq_overSteps, overSteps, strengths_eq, hgains, hlosses]
    refine Gives.imp (.step (gives_windows Nat.two_pos _) (.step (gives_mapM_pairs gives_move _)
      (.bind (gives_sma (hlength Prod.fst)) (.bind (gives_sma (hlength Prod.snd))
        (.bind (gives_mapM fun averages _ => gives_strength averages) (gives_pure _)))))) ?_
    rintro ⟨hgain, hloss, hstrength, -⟩ hperiod
    exact (settledFrom_strengths (hgain hperiod) (hloss hperiod) hstrength).cons hperiod none

/-- The average true range runs to its end and is that of the definition. -/
theorem gives_atr {candles : List Candle} (hlimit : candles.length < wordLimit) (period : Nat) :
    Gives (atr candles period) (Indicator.atr candles period)
      (0 < period → SettledFrom period (Indicator.atr candles period)) := by
  by_cases hnone : period = 0 ∨ candles.length < 2
  · rw [atr, if_pos hnone, atr_eq_undefined hnone]
    exact gives_undefined (by omega)
  · obtain ⟨first, rest, rfl⟩ := List.exists_cons_of_length_pos (show 0 < candles.length by omega)
    have hlength : (steps (fun previous current : Candle => current.trueRange previous.closing)
        (first :: rest)).length < wordLimit := by
      rw [length_steps]
      omega
    rw [atr, if_neg hnone, atr_eq_overSteps, overSteps]
    refine Gives.imp (.step (gives_windows Nat.two_pos _) (.step (gives_mapM_pairs gives_trueRange _)
      (.bind (gives_sma hlength) (gives_pure _)))) ?_
    rintro ⟨hsettled, -⟩ hperiod
    exact (hsettled hperiod).cons hperiod none

end Candlewick.Indicator.Machine
