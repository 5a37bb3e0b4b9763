import Candlewick.Builtin
import Candlewick.Indicator.Deviation
import Candlewick.Indicator.Momentum
import Candlewick.Indicator.Range
import Mathlib

namespace Candlewick.Indicator

open Quantity

/-- The first number that is no word of the machine. -/
def wordLimit : Nat :=
  2 ^ 64

/-- Why the machine stops. -/
inductive Trap where
  | noWord
  | noPlace
  | emptyWindow
deriving DecidableEq

/-- A computation over numbers `α` that computes places in words and looks up every place in a list.
    It stops at a place that is no word or that a list does not have. Its state is the numbers that
    it has come to, the latest one first. -/
abbrev Machine (α : Type) : Type → Type :=
  StateT (List α) (Except Trap)

namespace Machine

variable {α β ι : Type}

/-- The sum of two words. -/
def plus (a b : Nat) : Machine α Nat :=
  if a + b < wordLimit then pure (a + b) else throw .noWord

/-- The difference of two words. -/
def minus (a b : Nat) : Machine α Nat :=
  if b ≤ a then pure (a - b) else throw .noWord

/-- The value at a place of a list. -/
def read (values : List β) (place : Nat) : Machine α β :=
  match values[place]? with
  | some value => pure value
  | none => throw .noPlace

/-- A list with another value at a place. -/
def write (values : List β) (place : Nat) (value : β) : Machine α (List β) :=
  if place < values.length then pure (values.set place value) else throw .noPlace

/-- The values of a list from a place on. -/
def after (values : List β) (place : Nat) : Machine α (List β) :=
  if place ≤ values.length then pure (values.drop place) else throw .noPlace

/-- The full windows of a list. -/
def windows (width : Nat) (values : List β) : Machine α (List (List β)) :=
  if width = 0 then throw .emptyWindow else pure (fullWindows width values)

/-- A number that the machine has come to. -/
def keep (x : α) : Machine α α := do
  modify (x :: ·)
  return x

/-- Writes an entry for each item, at the place of the item. -/
def fill (place : ι → Machine α Nat) (entry : ι → Machine α α) (row : List (Option α)) :
    List ι → Machine α (List (Option α))
  | [] => return row
  | item :: rest => do
    let x ← entry item
    let row ← write row (← place item) (some x)
    fill place entry row rest

variable [Quantity α]

/-- The sum of a list, value by value. -/
def total (values : List α) : Machine α α :=
  values.foldlM (fun sum value => keep (sum + value)) emptySum

/-- The mean of a window. -/
def mean (period : Nat) (window : List α) : Machine α α := do
  keep ((← total window) / whole period)

/-- The standard deviation of a window. -/
def deviation [Root α] (period : Nat) (window : List α) : Machine α α := do
  let average ← mean period window
  let squares ← window.mapM fun value => do
    let distance ← keep (value - average)
    keep (distance * distance)
  keep (Root.sqrt (← mean period squares))

/-- A function of each full window. The entry of a window stands at the place where the window ends. -/
def overWindows (period : Nat) (f : List α → Machine α α) (values : List α) :
    Machine α (List (Option α)) := do
  if period = 0 ∨ values.length < period then
    return undefined values
  else
    let windows ← windows period values
    fill (fun item => do minus (← plus item.2 period) 1) (fun item => f item.1) (undefined values)
      windows.zipIdx

def sma (values : List α) (period : Nat) : Machine α (List (Option α)) :=
  overWindows period (mean period) values

def stdev [Root α] (values : List α) (period : Nat) : Machine α (List (Option α)) :=
  overWindows period (deviation period) values

/-- The entries of the exponential average after the first one. -/
def smoothed (k average : α) : List α → Machine α (List (Option α))
  | [] => return []
  | value :: rest => do
    let distance ← keep (value - average)
    let step ← keep (distance * k)
    let next ← keep (step + average)
    return some next :: (← smoothed k next rest)

def ema (values : List α) (period : Nat) : Machine α (List (Option α)) := do
  if period = 0 ∨ values = [] then
    return undefined values
  else
    let divisor ← keep (whole period + whole 1)
    let k ← keep (whole 2 / divisor)
    let first ← keep (← read values 0)
    return some first :: (← smoothed k first (← after values 1))

/-- The sums with a value that fills the window. -/
def filled (sums : WeightedSums α) (place : Nat) (value : α) : Machine α (WeightedSums α) := do
  let product ← keep (whole place * value)
  let weighted ← keep (sums.weighted + product)
  let plain ← keep (sums.plain + value)
  return ⟨weighted, plain⟩

/-- The sums with a value that takes the place of another one. -/
def slid (sums : WeightedSums α) (period : Nat) (leaving value : α) :
    Machine α (WeightedSums α) := do
  let product ← keep (whole period * value)
  let rise ← keep (product - sums.plain)
  let weighted ← keep (sums.weighted + rise)
  let change ← keep (value - leaving)
  let plain ← keep (sums.plain + change)
  return ⟨weighted, plain⟩

/-- The sums at an index, from those before it. -/
def next (values : List α) (period index : Nat) (sums : WeightedSums α) (value : α) :
    Machine α (WeightedSums α) := do
  if index < period then
    filled sums (← plus index 1) value
  else
    slid sums period (← read values (← minus index period)) value

/-- The row with the entry at an index, if the window is full there. -/
def entered (period index : Nat) (divisor : α) (sums : WeightedSums α) (row : List (Option α)) :
    Machine α (List (Option α)) := do
  if period ≤ (← plus index 1) then
    write row index (some (← keep (sums.weighted / divisor)))
  else
    return row

/-- The weighted average from an index on, over the values that are left. -/
def wmaFrom (values : List α) (period : Nat) (divisor : α) (index : Nat) (sums : WeightedSums α)
    (row : List (Option α)) : List α → Machine α (List (Option α))
  | [] => return row
  | value :: rest => do
    let sums ← next values period index sums value
    let row ← entered period index divisor sums row
    wmaFrom values period divisor (index + 1) sums row rest

def wma (values : List α) (period : Nat) : Machine α (List (Option α)) := do
  if period = 0 ∨ values.length < period then
    return undefined values
  else
    let sum ← keep (whole period + whole 1)
    let product ← keep (whole period * sum)
    let divisor ← keep (product / whole 2)
    wmaFrom values period divisor 0 ⟨whole 0, whole 0⟩ (undefined values) values

/-- The change at an index, in percent of the value `period` places before. -/
def rateAt (values : List α) (period index : Nat) : Machine α α := do
  let previous ← read values (← minus index period)
  if isZero previous then
    keep (whole 0)
  else
    let current ← read values index
    let change ← keep (current - previous)
    let ratio ← keep (change / previous)
    keep (ratio * whole 100)

def roc (values : List α) (period : Nat) : Machine α (List (Option α)) := do
  if period = 0 then
    return undefined values
  else
    fill pure (rateAt values period) (undefined values)
      (List.range' period (values.length - period))

/-- The gain and the loss between two values. -/
def move (pair : List α) : Machine α (α × α) := do
  let change ← keep ((← read pair 1) - (← read pair 0))
  let gain ← keep (positivePart change)
  let fall ← keep (-change)
  let loss ← keep (positivePart fall)
  return (gain, loss)

/-- The relative strength of an average gain against an average loss, where both are there. -/
def strength : Option α × Option α → Machine α (Option α)
  | (some gain, some loss) =>
    if isUndefined gain || isUndefined loss then
      return none
    else if isZero loss then do
      return some (← keep (whole 50))
    else do
      let ratio ← keep (gain / loss)
      let sum ← keep (whole 1 + ratio)
      let part ← keep (whole 100 / sum)
      return some (← keep (whole 100 - part))
  | _ => return none

def rsi (values : List α) (period : Nat) : Machine α (List (Option α)) := do
  if period = 0 ∨ values.length ≤ period then
    return undefined values
  else
    let moves ← (← windows 2 values).mapM move
    let gains ← sma (moves.map Prod.fst) period
    let losses ← sma (moves.map Prod.snd) period
    return none :: (← (gains.zip losses).mapM strength)

/-- The true range of the second of two candles. -/
def trueRange (pair : List Candle) : Machine Float Float := do
  let current ← read pair 1
  let previous ← read pair 0
  let within ← keep (current.high - current.low)
  let upward ← keep (current.high - previous.closing).abs
  let downward ← keep (current.low - previous.closing).abs
  keep (Decimal.larger (Decimal.larger within upward) downward)

def atr (candles : List Candle) (period : Nat) : Machine Float (List (Option Float)) := do
  if period = 0 ∨ candles.length < 2 then
    return undefined candles
  else
    let ranges ← (← windows 2 candles).mapM trueRange
    return none :: (← sma ranges period)

/-- The entries of a study. -/
def study [Root α] : Study → List α → Nat → Machine α (List (Option α))
  | .sma => sma
  | .ema => ema
  | .wma => wma
  | .rsi => rsi
  | .stdev => stdev
  | .roc => roc

end Machine

end Candlewick.Indicator
