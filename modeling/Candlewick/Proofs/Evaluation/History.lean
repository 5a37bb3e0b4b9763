import Candlewick.Proofs.Decimal.Natural
import Candlewick.Proofs.Evaluation.Recomputation
import Candlewick.Proofs.Indicator.Machine

namespace Candlewick

open Decimal Evaluation

/-- A tree with some offsets behind it, written one after the other; the last of them is the first
    to go back by. -/
def Node.pastAll (node : Node) (literals : List Float) : Node :=
  literals.foldl (fun object literal => .past object (.number literal)) node

/-- An offset that is a natural number goes back that far, as far as words go. -/
theorem historyOffset_of_represents {literal : Float} {offset : Nat}
    (hoffset : Represents literal offset) :
    historyOffset (.number literal) = .ok (min offset (2 ^ 64 - 1)) := by
  have hwhole : isWholeNumber literal = true := isWholeNumber_iff.2 ⟨offset, hoffset⟩
  rw [historyOffset, if_pos hwhole, hoffset.toNat_toUInt64]

/-- Access to history by a whole number: if so many candles lie in front, the object is evaluated at
    the index that is that much smaller. The number is cast to a word first. -/
theorem outcome_past (series : Series) (object : Node) {literal : Float} {offset : Nat}
    (hoffset : Represents literal offset) (start : Moment) :
    (evaluate series (.past object (.number literal))).outcome start =
      if start.index < min offset (2 ^ 64 - 1) then
        (.error (.beforeFirstCandle (min offset (2 ^ 64 - 1)) start.index), start)
      else
        (atIndex (start.index - min offset (2 ^ 64 - 1)) (evaluate series object)).outcome
          start := by
  have hnumber :
      (evaluate series (.number literal)).outcome start = (.ok (.number literal), start) := rfl
  have hlook : index.outcome start = (.ok start.index, start) := rfl
  rw [evaluate]
  simp only [outcome_bind, hnumber, outcome_settle, historyOffset_of_represents hoffset, hlook]
  split
  · rfl
  · rfl

/-- An evaluation at the present index is one without a change of the index. -/
theorem outcome_atIndex_self (series : Series) (node : Node) (start : Moment) :
    (atIndex start.index (evaluate series node)).outcome start =
      (evaluate series node).outcome start := by
  have hback := (evaluate_moved series node start).index_first
  rw [outcome_atIndex]
  exact Prod.ext rfl (congrArg (Moment.mk _) hback.symm)

section PastAll

variable (series : Series) {start : Moment} {literals : List Float} {offsets : List Nat}

/-- Within the candles the offsets add up. -/
theorem outcome_pastAll (hword : start.index < 2 ^ 64 - 1)
    (hoffsets : List.Forall₂ (fun literal (offset : Nat) => Represents literal offset)
      literals offsets)
    (hinside : offsets.sum ≤ start.index) (node : Node) :
    (evaluate series (node.pastAll literals)).outcome start =
      (atIndex (start.index - offsets.sum) (evaluate series node)).outcome start := by
  induction hoffsets generalizing node with
  | nil => exact (outcome_atIndex_self series node start).symm
  | @cons literal offset literals offsets hoffset hoffsets ih =>
    rw [List.sum_cons] at hinside
    have hrest := ih (by omega) (.past node (.number literal))
    have hmin : min offset (2 ^ 64 - 1) = offset := by omega
    have hroom : ¬ start.index - offsets.sum < offset := by omega
    have hback : start.index - offsets.sum - offset = start.index - (offset + offsets.sum) := by
      omega
    rw [outcome_atIndex, outcome_past series node hoffset, hmin, if_neg hroom, hback,
      outcome_atIndex] at hrest
    rw [List.sum_cons, outcome_atIndex]
    exact hrest

/-- Beyond them there is one fault for all trees, and nothing has changed. -/
theorem exists_fault_pastAll (hword : start.index < 2 ^ 64 - 1)
    (hoffsets : List.Forall₂ (fun literal (offset : Nat) => Represents literal offset)
      literals offsets)
    (hbeyond : start.index < offsets.sum) :
    ∃ fault : EvalFault, fault.kind = .invalidIndex ∧
      ∀ node : Node,
        (evaluate series (node.pastAll literals)).outcome start = (.error fault, start) := by
  induction hoffsets with
  | nil => exact absurd hbeyond (Nat.not_lt_zero _)
  | @cons literal offset literals offsets hoffset hoffsets ih =>
    rw [List.sum_cons] at hbeyond
    rcases Nat.lt_or_ge start.index offsets.sum with hlater | hlater
    · -- one of the offsets behind the first one already goes back too far
      obtain ⟨fault, hkind, houtcome⟩ := ih hlater
      exact ⟨fault, hkind, fun node => houtcome (.past node (.number literal))⟩
    · have hmin : start.index - offsets.sum < min offset (2 ^ 64 - 1) := by omega
      refine ⟨.beforeFirstCandle (min offset (2 ^ 64 - 1)) (start.index - offsets.sum), rfl, ?_⟩
      intro node
      have hrest := outcome_pastAll series hword hoffsets hlater (.past node (.number literal))
      rw [outcome_atIndex, outcome_past series node hoffset, if_pos hmin] at hrest
      exact hrest

end PastAll

/-- Offsets add up. A tree with natural numbers as offsets behind it, one after the other, has the
    outcome and does to the variables what the tree alone does as far back as their sum, if there
    are so many candles before the present one. If there are not, the index is invalid, whatever
    tree it is, and the variables are as they were. The index is the old one in both cases. -/
theorem history_offsets_add_up {series : Series} (hlimit : series.length < Indicator.wordLimit)
    {start : Moment} (hindex : start.index < series.length) {literals : List Float}
    {offsets : List Nat}
    (hoffsets : List.Forall₂ (fun literal (offset : Nat) => Represents literal offset)
      literals offsets) :
    (offsets.sum ≤ start.index → ∀ node : Node,
      let shifted :=
        (evaluate series node).outcome { start with index := start.index - offsets.sum }
      (evaluate series (node.pastAll literals)).outcome start =
        (shifted.1, { shifted.2 with index := start.index })) ∧
    (start.index < offsets.sum → ∃ fault : EvalFault, fault.kind = .invalidIndex ∧
      ∀ node : Node,
        (evaluate series (node.pastAll literals)).outcome start = (.error fault, start)) := by
  have hword : start.index < 2 ^ 64 - 1 := by
    rw [Indicator.wordLimit] at hlimit
    omega
  constructor
  · intro hinside node
    rw [outcome_pastAll series hword hoffsets hinside, outcome_atIndex]
  · exact exists_fault_pastAll series hword hoffsets

/-- Two offsets at the last of four candles. One and two lead to the first candle, where the
    variable gets its value; two and two lead beyond it, although each of them alone would not. -/
theorem history_offsets_add_up_four_candles :
    let candle (time : Int) (price : Float) : Candle := ⟨time, price, price, price, price, 1⟩
    let series : Series := ⟨[candle 1 10, candle 2 12, candle 3 20, candle 4 30], by decide⟩
    let start : Moment := ⟨∅, 3⟩
    let node : Node := .assign "x" (.price .closing)
    series.length < Indicator.wordLimit ∧ start.index < series.length ∧
      (evaluate series (.past (.past node (.number 1)) (.number 2))).outcome start =
        (.ok (.number 10), ⟨.ofList [("x", .number 10)], 3⟩) ∧
      ∃ fault : EvalFault, fault.kind = .invalidIndex ∧
        (evaluate series (.past (.past node (.number 2)) (.number 2))).outcome start =
          (.error fault, start) := by
  intro candle series start node
  have hlimit : series.length < Indicator.wordLimit := by decide
  have hindex : start.index < series.length := by decide
  have hone : Represents 1 (1 : Nat) := represents_ofNat (by decide)
  have htwo : Represents 2 (2 : Nat) := represents_ofNat (by decide)
  have hthree := history_offsets_add_up hlimit hindex (.cons hone (.cons htwo .nil))
  have hfour := history_offsets_add_up hlimit hindex (.cons htwo (.cons htwo .nil))
  obtain ⟨fault, hkind, houtcome⟩ := hfour.2 (by decide)
  exact ⟨hlimit, hindex, (hthree.1 (by decide) node).trans rfl, fault, hkind, houtcome node⟩

end Candlewick
