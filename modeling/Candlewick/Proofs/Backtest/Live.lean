import Candlewick.Proofs.Backtest.Steps
import Candlewick.Proofs.Evaluation.Frame

namespace Candlewick

open Evaluation

namespace Program

/-- A variable that has no trace of earlier evaluations once some statements are done: the program
    assigns it nowhere, or one of these statements has just assigned it. -/
def Settled (program : Program) (done : List Node) (name : String) : Prop :=
  (∀ statement ∈ program.statements, ¬ statement.Assigns name) ∨ ∃ value, .assign name value ∈ done

/-- A program whose statements read settled variables only. -/
def Memoryless (program : Program) : Prop :=
  ∀ done statement rest, program.statements = done ++ statement :: rest →
    ∀ name, statement.Reads name → program.Settled done name

end Program

variable {program : Program}

/-- An assignment that succeeds leaves its value under the name. -/
theorem get?_of_evaluate_assign {series : Series} {target : String} {node : Node}
    {start later : Moment} {value : Value}
    (houtcome : (evaluate series (.assign target node)).outcome start = (.ok value, later)) :
    later.bindings.get? target = some value := by
  rw [evaluate, outcome_bind] at houtcome
  rcases hnode : (evaluate series node).outcome start with ⟨_ | held, moment⟩ <;>
    rw [hnode] at houtcome
  · cases houtcome
  · change (Except.ok held, { moment with bindings := moment.bindings.put target held }) = _
      at houtcome
    cases houtcome
    rw [Keyed.get?_put, if_pos rfl]

/-- The variables that a program assigns nowhere are the same at each step of a run. -/
theorem Backtest.get?_bindingsAt {name : String}
    (hname : ∀ statement ∈ program.statements, ¬ statement.Assigns name) (series : Series)
    (bindings : Variables) (index : Nat) :
    (bindingsAt program series bindings index).get? name = bindings.get? name := by
  induction index with
  | zero => rfl
  | succ index ih =>
    rw [bindingsAt, bindingsAfter_succ, Nat.zero_add]
    change ((evaluateProgram series program).outcome
      ⟨bindingsAt program series bindings index, index⟩).2.bindings.get? name = _
    have hnever : ¬ ∃ statement ∈ program.statements, statement.Assigns name := by
      rintro ⟨statement, hstatement, hassigns⟩
      exact hname statement hstatement hassigns
    let start : Moment := ⟨bindingsAt program series bindings index, index⟩
    exact ((evaluateStatements_moved series program.statements .na start).get?_eq hnever).trans ih

/-- Two runs of the statements of a memoryless program go the same way as long as they agree on the
    settled variables. A statement that assigns at the top settles one more of them. -/
theorem Program.Memoryless.outcome_eq {first second : Series} {last : Nat}
    (hmemoryless : program.Memoryless) (hsame : first.SameUpTo last second) {done rest : List Node}
    (hsplit : program.statements = done ++ rest) (value : Value) {start start' : Moment}
    (hindex : start.index = start'.index) (hlast : start.index ≤ last)
    (hagree : start.AgreeOn (program.Settled done) start') :
    ((evaluateStatements first value rest).outcome start).1 =
      ((evaluateStatements second value rest).outcome start').1 := by
  induction rest generalizing done value start start' with
  | nil => rfl
  | cons node rest ih =>
    have halike : Alike (program.Settled done) (fun _ => True) last (evaluate first node)
        (evaluate second node) :=
      evaluate_alike hsame node (hmemoryless done node rest hsplit) fun _ _ => trivial
    obtain ⟨houtcome, hmoved⟩ := halike start start' hindex hlast hagree
    rw [evaluateStatements, evaluateStatements, outcome_bind, outcome_bind]
    rcases hone : (evaluate first node).outcome start with ⟨_ | held, later⟩ <;>
      rcases hother : (evaluate second node).outcome start' with ⟨_ | held', later'⟩ <;>
      rw [hone, hother] at houtcome hmoved <;> cases houtcome
    · rfl
    · have hsplit' : program.statements = (done ++ [node]) ++ rest := by
        rw [hsplit, List.append_assoc, List.singleton_append]
      apply ih hsplit'
      · rw [hmoved.index_first, hmoved.index_second, hindex]
      · rw [hmoved.index_first]
        exact hlast
      · intro name hsettled
        rcases hsettled with hnever | ⟨value, hmem⟩
        · exact hmoved.agreeOn hagree name (.inl hnever)
        · rcases List.mem_append.1 hmem with hdone | hnode
          · exact hmoved.agreeOn hagree name (.inr ⟨value, hdone⟩)
          · obtain rfl := List.mem_singleton.1 hnode
            rw [get?_of_evaluate_assign hone, get?_of_evaluate_assign hother]

/-- A series and its first candles agree up to the last of these. -/
theorem Series.truncate_sameUpTo (series : Series) (last : Nat) :
    series.SameUpTo last (series.truncate (last + 1)) := by
  intro index hindex
  rw [Series.get?, Series.get?, Series.truncate, List.getElem?_take_of_lt (by omega)]

/-- An evaluation at the latest of the first candles of a series. -/
theorem execute_truncate {series : Series} {index : Nat} (hindex : index < series.length)
    (bindings : Variables) :
    execute program (series.truncate (index + 1)) bindings =
      ((evaluateProgram (series.truncate (index + 1)) program).outcome ⟨bindings, index⟩).1 := by
  have hlength : (series.truncate (index + 1)).length = index + 1 := by
    rw [Series.length, Series.truncate, List.length_take]
    exact Nat.min_eq_left hindex
  have hempty : (series.truncate (index + 1)).isEmpty = false := by
    rw [Series.isEmpty, List.isEmpty_eq_false_iff, ← List.length_pos_iff]
    change 0 < (series.truncate (index + 1)).length
    omega
  rw [execute, hempty, hlength]
  rfl

/-- Each step of a backtest of a memoryless program has the outcome that a live evaluation would
    have had, started afresh with the first variables when the candle of the step was the latest
    one. -/
theorem Backtest.step_eq_execute (hmemoryless : program.Memoryless) (series : Series)
    (bindings : Variables) {index : Nat} {candle : Candle}
    (hcandle : series.get? index = some candle) :
    (run program series bindings).steps[index]? =
      some ⟨index, candle.timestamp, execute program (series.truncate (index + 1)) bindings⟩ := by
  have hindex : index < series.length := (List.getElem?_eq_some_iff.1 hcandle).1
  have hagree : Moment.AgreeOn (program.Settled [])
      ⟨bindingsAt program series bindings index, index⟩ ⟨bindings, index⟩ := by
    intro name hsettled
    rcases hsettled with hnever | ⟨value, hmem⟩
    · exact get?_bindingsAt hnever series bindings index
    · cases hmem
  have hsplit : program.statements = [] ++ program.statements := rfl
  have houtcome :
      ((evaluateProgram series program).outcome
        ⟨bindingsAt program series bindings index, index⟩).1 =
      ((evaluateProgram (series.truncate (index + 1)) program).outcome ⟨bindings, index⟩).1 :=
    hmemoryless.outcome_eq (series.truncate_sameUpTo index) hsplit .na rfl (Nat.le_refl index)
      hagree
  rw [getElem?_steps_run, hcandle, execute_truncate hindex, Option.map_some, houtcome]

/-- A program that keeps the last close and compares it with a bound: its second step sees nothing
    of the first one, which has failed half way. -/
theorem Backtest.step_eq_execute_after_failure :
    let program : Program := .sequence
      [.assign "x" (.past (.price .closing) (.number 1)), .binary .gt (.name "x") (.name "limit")]
    let series : Series := ⟨[⟨1, 7, 7, 7, 7, 1⟩, ⟨2, 8, 8, 8, 8, 1⟩], by decide⟩
    let bindings : Variables := .ofList [("limit", .number 5)]
    program.Memoryless ∧ series.get? 1 = some ⟨2, 8, 8, 8, 8, 1⟩ ∧
      (run program series bindings).steps[1]? =
        some ⟨1, 2, execute program (series.truncate 2) bindings⟩ := by
  intro program series bindings
  have hmemoryless : program.Memoryless := by
    intro done statement rest hsplit name hread
    match done with
    | [] =>
      obtain ⟨rfl, -⟩ := List.cons.inj hsplit
      simp [Node.Reads, Node.children, Node.within_iff _ (.assign _ _),
        Node.within_iff _ (.past _ _), Node.within_iff _ (.price _),
        Node.within_iff _ (.number _)] at hread
    | [first] =>
      obtain ⟨rfl, hrest⟩ := List.cons.inj hsplit
      obtain ⟨rfl, -⟩ := List.cons.inj hrest
      simp [Node.Reads, Node.children, Node.within_iff _ (.binary _ _ _),
        Node.within_iff _ (.name _)] at hread
      rcases hread with rfl | rfl
      · exact .inr ⟨_, List.mem_singleton_self _⟩
      · refine .inl ?_
        simp [program, Program.statements, Node.Assigns, Node.children,
          Node.within_iff _ (.assign _ _), Node.within_iff _ (.past _ _),
          Node.within_iff _ (.price _), Node.within_iff _ (.number _),
          Node.within_iff _ (.binary _ _ _), Node.within_iff _ (.name _)]
    | _ :: _ :: _ =>
      have hlength := congrArg List.length hsplit
      simp [program, Program.statements] at hlength
  have hcandle : series.get? 1 = some ⟨2, 8, 8, 8, 8, 1⟩ := rfl
  exact ⟨hmemoryless, hcandle, step_eq_execute hmemoryless series bindings hcandle⟩

end Candlewick
