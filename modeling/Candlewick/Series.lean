import Candlewick.Candle

namespace Candlewick

/-- Why a list of candles is not a series. -/
inductive SeriesFault where
  | outOfOrder (index : Nat) (previous current : Int)
  | duplicateTimestamp (index : Nat) (timestamp : Int)
deriving DecidableEq

/-- The wording of a fault. -/
def SeriesFault.message : SeriesFault → String
  | outOfOrder index previous current =>
    s!"candle {index} is out of order: timestamp {current} follows {previous}"
  | duplicateTimestamp index timestamp => s!"candle {index} duplicates timestamp {timestamp}"

/-- The first fault in a list whose head has the given index. -/
def firstFault? (index : Nat) : List Candle → Option SeriesFault
  | previous :: current :: rest =>
    if current.timestamp = previous.timestamp then
      some (.duplicateTimestamp (index + 1) current.timestamp)
    else if current.timestamp < previous.timestamp then
      some (.outOfOrder (index + 1) previous.timestamp current.timestamp)
    else
      firstFault? (index + 1) (current :: rest)
  | _ => none

/-- A list without a fault is in strictly ascending order, also between candles that are not next to
    each other. -/
theorem ascending_of_firstFault?_eq_none {candles : List Candle} {index : Nat}
    (h : firstFault? index candles = none) :
    candles.Pairwise (·.timestamp < ·.timestamp) := by
  induction candles generalizing index with
  | nil => exact .nil
  | cons previous rest ih =>
    cases rest with
    | nil => exact List.pairwise_singleton _ _
    | cons current later =>
      rw [firstFault?] at h
      split at h
      · simp at h
      · split at h
        · simp at h
        · have hrest := ih h
          have hnext : previous.timestamp < current.timestamp := by omega
          refine List.pairwise_cons.2 ⟨?_, hrest⟩
          intro candle hmem
          rcases List.mem_cons.1 hmem with rfl | hlater
          · exact hnext
          · exact Int.lt_trans hnext ((List.pairwise_cons.1 hrest).1 candle hlater)

/-- Candles in strictly ascending order of time. -/
structure Series where
  candles : List Candle
  ascending : candles.Pairwise (·.timestamp < ·.timestamp)

namespace Series

/-- The series of a list of candles, or the first fault in it. -/
def ofCandles? (candles : List Candle) : Except SeriesFault Series :=
  match h : firstFault? 0 candles with
  | some fault => .error fault
  | none => .ok ⟨candles, ascending_of_firstFault?_eq_none h⟩

/-- The series without candles. -/
def empty : Series := ⟨[], .nil⟩

/-- The number of candles. -/
def length (series : Series) : Nat :=
  series.candles.length

/-- Whether there is no candle. -/
def isEmpty (series : Series) : Bool :=
  series.candles.isEmpty

/-- The candle at an index. -/
def get? (series : Series) (index : Nat) : Option Candle :=
  series.candles[index]?

/-- The latest candle. -/
def latest? (series : Series) : Option Candle :=
  series.candles.getLast?

/-- The candles up to an index, that one included. -/
def history (series : Series) (index : Nat) : List Candle :=
  series.candles.take (index + 1)

/-- The first candles of a series. -/
def truncate (series : Series) (count : Nat) : Series :=
  ⟨series.candles.take count, series.ascending.sublist (List.take_sublist _ _)⟩

end Series

/-- One field of a run of candles. -/
def fieldValues (candles : List Candle) (field : PriceField) : List Float :=
  candles.map (·.field field)

end Candlewick
