import Candlewick.Proofs.Indicator.Assembly

namespace Candlewick.Indicator

open Quantity

variable {α β γ : Type}

/-- One entry for each value, and none of them changes when further values come in. -/
structure Online (entries : List α → List β) : Prop where
  length_eq : ∀ values, (entries values).length = values.length
  take_eq : ∀ values count, entries (values.take count) = (entries values).take count

namespace Online

/-- Over the values up to an index the last entry is the one at the index. -/
theorem getLast?_take {entries : List α → List β} (honline : Online entries) {values : List α}
    {index : Nat} (hindex : index < values.length) :
    (entries (values.take (index + 1))).getLast? = (entries values)[index]? := by
  have hlength := honline.length_eq values
  rw [honline.take_eq, List.getLast?_eq_getElem?, List.length_take_of_le (by omega),
    Nat.add_sub_cancel, List.getElem?_take_of_lt (Nat.lt_succ_self index)]

/-- The last entry over the values up to a place is the entry at that place. -/
theorem exists_entry {entries : List α → List β} (honline : Online entries) {values : List α}
    {index : Nat} (hindex : index < values.length) :
    ∃ entry, (entries (values.take (index + 1))).getLast? = some entry ∧
      (entries values)[index]? = some entry := by
  have hlength : index < (entries values).length := by
    rw [honline.length_eq]
    exact hindex
  have hentry := List.getElem?_eq_getElem hlength
  exact ⟨_, (honline.getLast?_take hindex).trans hentry, hentry⟩

/-- An image of each value for itself looks at no other value. -/
theorem map (f : α → β) : Online (List.map f) :=
  ⟨fun _ => List.length_map f, fun _ _ => List.map_take⟩

/-- Indicators that only look back can be put one behind the other. -/
theorem comp {inner : List α → List β} {outer : List β → List γ} (houter : Online outer)
    (hinner : Online inner) : Online fun values => outer (inner values) where
  length_eq values := by rw [houter.length_eq, hinner.length_eq]
  take_eq values count := by rw [hinner.take_eq, houter.take_eq]

/-- Two indicators that only look back can be joined entry by entry. -/
theorem zipWith {δ : Type} (join : β → γ → δ) {one : List α → List β} {other : List α → List γ}
    (hone : Online one) (hother : Online other) :
    Online fun values => List.zipWith join (one values) (other values) where
  length_eq values := by
    rw [List.length_zipWith, hone.length_eq, hother.length_eq, Nat.min_self]
  take_eq values count := by rw [hone.take_eq, hother.take_eq, List.take_zipWith]

protected theorem undefined : Online (undefined : List α → List (Option β)) where
  length_eq values := List.length_replicate
  take_eq values count := by
    rw [undefined, undefined, List.take_replicate, List.length_take]

/-- A function of windows only looks back, since a window ends at its own value. -/
theorem overWindows (period : Nat) (f : List α → β) : Online (overWindows period f) where
  length_eq := length_overWindows period f
  take_eq values count := by
    apply List.ext_getElem?
    intro index
    by_cases hindex : index < (values.take count).length
    · obtain ⟨hcount, hlength⟩ : index < count ∧ index < values.length := by
        rw [List.length_take] at hindex
        omega
      rw [List.getElem?_take_of_lt hcount, getElem?_overWindows period f hindex,
        getElem?_overWindows period f hlength]
      by_cases hfull : 0 < period ∧ period ≤ index + 1
      · rw [if_pos hfull, if_pos hfull, window_take hfull.2 hcount]
      · rw [if_neg hfull, if_neg hfull]
    · rw [List.getElem?_eq_none (by rw [length_overWindows]; omega), List.getElem?_eq_none]
      rw [List.length_take] at hindex ⊢
      rw [length_overWindows]
      omega

/-- An entry for the first value, and entries for the later ones that may depend on it. -/
theorem of_cons {entries : List α → List β} {entry : α → β} {later : α → List α → List β}
    (hnil : entries [] = [])
    (hcons : ∀ first rest, entries (first :: rest) = entry first :: later first rest)
    (hlater : ∀ first, Online (later first)) : Online entries where
  length_eq values := by
    cases values with
    | nil => rw [hnil, List.length_nil, List.length_nil]
    | cons first rest =>
      rw [hcons, List.length_cons, (hlater first).length_eq, List.length_cons]
  take_eq values count := by
    cases values with
    | nil => rw [List.take_nil, hnil, List.take_nil]
    | cons first rest =>
      cases count with
      | zero => rw [List.take_zero, hnil, List.take_zero]
      | succ count =>
        rw [List.take_succ_cons, hcons, hcons, (hlater first).take_eq, List.take_succ_cons]

/-- The steps between neighbours only look back once there is a first value. -/
theorem steps_cons (step : α → α → β) (first : α) :
    Online fun rest => steps step (first :: rest) where
  length_eq rest := by rw [length_steps, List.length_cons, Nat.add_sub_cancel]
  take_eq rest count := by rw [← List.take_succ_cons, steps_take]

/-- What only looks back over the steps between neighbours does so over the values themselves. -/
protected theorem overSteps (step : α → α → β) {entries : List β → List (Option γ)}
    (honline : Online entries) : Online (overSteps step entries) :=
  .of_cons rfl (fun _ _ => rfl) fun first => honline.comp (.steps_cons step first)

/-- An indicator that leaves everything undefined for the period zero. -/
theorem of_period {entries : List α → Nat → List (Option β)}
    (hzero : ∀ values, entries values 0 = Indicator.undefined values)
    (hpositive : ∀ {period}, 0 < period → Online fun values => entries values period)
    (period : Nat) : Online fun values => entries values period := by
  cases period with
  | zero =>
    simp only [hzero]
    exact .undefined
  | succ period => exact hpositive (Nat.succ_pos period)

end Online

section Studies

variable [Quantity α]

protected theorem Online.sma (period : Nat) : Online fun values : List α => sma values period :=
  .overWindows period (mean period)

protected theorem Online.stdev [Root α] (period : Nat) :
    Online fun values : List α => stdev values period :=
  .overWindows period fun values => Root.sqrt (variance period values)

protected theorem Online.roc (period : Nat) : Online fun values : List α => roc values period := by
  refine .of_period roc_zero (fun hperiod => ?_) period
  simp only [roc_eq_overWindows hperiod]
  exact .overWindows _ _

protected theorem Online.strengths (period : Nat) :
    Online fun changes : List α => strengths period changes :=
  .zipWith _ ((Online.sma period).comp (.map _)) ((Online.sma period).comp (.map _))

protected theorem Online.rsi (period : Nat) : Online fun values : List α => rsi values period := by
  simp only [rsi_eq_overSteps]
  exact .overSteps _ (.strengths period)

protected theorem Online.atr (period : Nat) : Online fun candles => atr candles period := by
  simp only [atr_eq_overSteps]
  exact .overSteps _ (.sma period)

/-- A smoothed average depends on what came before it and on the present value. -/
protected theorem Online.smoothed (k average : α) : Online (smoothed k average) where
  length_eq values := by
    induction values generalizing average with
    | nil => rfl
    | cons value rest ih => rw [smoothed, List.length_cons, List.length_cons, ih]
  take_eq values count := by
    induction values generalizing average count with
    | nil => rw [List.take_nil, smoothed, List.take_nil]
    | cons value rest ih =>
      cases count with
      | zero => rfl
      | succ count => rw [List.take_succ_cons, smoothed, smoothed, List.take_succ_cons, ih]

protected theorem Online.averages (k : α) : Online (averages k) :=
  .of_cons rfl (fun _ _ => rfl) fun first => .smoothed k first

protected theorem Online.ema (period : Nat) : Online fun values : List α => ema values period := by
  refine .of_period ema_zero (fun hperiod => ?_) period
  simp only [ema_eq_averages hperiod]
  exact (Online.map some).comp (.averages _)

/-- The weighted average gives one entry for each value, from any sums on. -/
theorem length_wmaFrom (period : Nat) (divisor : α) (index : Nat) (sums : WeightedSums α)
    (leaving values : List α) :
    (wmaFrom period divisor index sums leaving values).length = values.length := by
  induction values generalizing index sums leaving with
  | nil => rfl
  | cons value rest ih =>
    rcases Nat.lt_or_ge index period with hfill | hslide
    · rw [wmaFrom_fill hfill, List.length_cons, List.length_cons, ih]
    · rw [wmaFrom_slide hslide, List.length_cons, List.length_cons, ih]

/-- The sums go from the first value to the last one, so the first entries do not depend on later
    values. -/
theorem wmaFrom_take (period : Nat) (divisor : α) (index : Nat) (sums : WeightedSums α)
    (leaving values : List α) (count : Nat) :
    wmaFrom period divisor index sums leaving (values.take count) =
      (wmaFrom period divisor index sums leaving values).take count := by
  induction values generalizing index sums leaving count with
  | nil => rw [List.take_nil, wmaFrom, List.take_nil]
  | cons value rest ih =>
    cases count with
    | zero => rfl
    | succ count =>
      rw [List.take_succ_cons]
      rcases Nat.lt_or_ge index period with hfill | hslide
      · rw [wmaFrom_fill hfill, wmaFrom_fill hfill, List.take_succ_cons, ih]
      · rw [wmaFrom_slide hslide, wmaFrom_slide hslide, List.take_succ_cons, ih]

/-- At most one value leaves the window for each value that comes in, so the values that would leave
    after these have no influence. -/
theorem wmaFrom_congr {period index : Nat} {divisor : α} {sums : WeightedSums α}
    {leaving leaving' values : List α}
    (hleaving : leaving.take values.length = leaving'.take values.length) :
    wmaFrom period divisor index sums leaving values =
      wmaFrom period divisor index sums leaving' values := by
  induction values generalizing index sums leaving leaving' with
  | nil => rfl
  | cons value rest ih =>
    rw [List.length_cons] at hleaving
    rcases Nat.lt_or_ge index period with hfill | hslide
    · have hrest : leaving.take rest.length = leaving'.take rest.length := by
        have hshorter := congrArg (List.take rest.length) hleaving
        rwa [List.take_take, List.take_take, Nat.min_eq_left (Nat.le_succ _)] at hshorter
      rw [wmaFrom_fill hfill, wmaFrom_fill hfill, ih hrest]
    · obtain ⟨hhead, htail⟩ : leaving.headD value = leaving'.headD value ∧
          leaving.tail.take rest.length = leaving'.tail.take rest.length := by
        cases leaving <;> cases leaving' <;> simp_all
      rw [wmaFrom_slide hslide, wmaFrom_slide hslide, hhead, ih htail]

/-- The weighted average only looks back. It is not a function of windows as it is computed, so the
    running sums are followed instead. -/
protected theorem Online.wma (period : Nat) : Online fun values : List α => wma values period := by
  refine .of_period wma_zero (fun hperiod => ?_) period
  simp only [wma, if_neg (Nat.ne_of_gt hperiod)]
  refine ⟨fun values => length_wmaFrom _ _ _ _ _ _, fun values count => ?_⟩
  have hleaving : (values.take count).take (values.take count).length =
      values.take (values.take count).length := by
    rw [List.take_length, List.length_take, ← List.take_eq_take_min]
  rw [wmaFrom_congr hleaving, wmaFrom_take]

end Studies

end Candlewick.Indicator
