import Candlewick.Backtest.Report
import Candlewick.Proofs.Csv.Reading

namespace Candlewick.Backtest

/-- Every record has a field for each name in the header. -/
theorem length_record (step : Step) : step.record.length = reportHeader.length := rfl

/-- A report begins with the name of its first column, whatever the steps hold. -/
theorem head?_report (run : Backtest) : run.report.toList.head? = some 'i' := by
  rw [report, Csv.write, String.toList_ofList, List.flatMap_cons]
  rfl

/-- A reader of comma-separated text finds in a report the header and one record for each step, in
    their order: its index, its timestamp, the text of its value, and whether it was skipped. A
    skipped step has an empty value. -/
theorem records_report (run : Backtest) :
    Csv.records run.report =
      .ok ["index", "timestamp", "value", "skipped"] ::
        run.steps.map fun step => .ok
          [toString step.index, toString step.timestamp,
            match step.outcome with
            | .ok value => value.display
            | .error _ => "",
            match step.outcome with
            | .ok _ => "false"
            | .error _ => "true"] := by
  have hrows : ∀ row ∈ reportHeader :: run.steps.map Step.record,
      row.length = reportHeader.length := by
    rw [List.forall_mem_cons, List.forall_mem_map]
    exact ⟨rfl, fun step _ => length_record step⟩
  have hmark : run.report.toList.head? ≠ some '\ufeff' := by simp [head?_report]
  rw [report, Csv.records_write (by decide) hrows hmark, List.map_cons, List.map_map]
  congr 1
  apply List.map_congr_left
  intro step _
  rcases step with ⟨index, timestamp, _ | value⟩ <;> rfl

end Candlewick.Backtest
