import Candlewick.Feed.Directory
import Candlewick.Proofs.Keyed.Filling

namespace Candlewick

/-- A table is empty if it holds nothing under any name. -/
theorem Keyed.isEmpty_iff {α : Type} {table : Keyed α} :
    table.isEmpty = true ↔ ∀ name, table.get? name = none := by
  constructor
  · intro hempty name
    rw [get?, List.isEmpty_iff.1 hempty, List.lookup_nil]
  · intro hnone
    rw [show table = empty from ext_get? hnone]
    rfl

namespace Universe

variable {port : String → Except Failure Series} {symbols : List String}

/-- What a source of candles answers to a list of symbols. -/
def answersOf (port : String → Except Failure Series) (symbols : List String) : List Answer :=
  symbols.map fun symbol => (symbol, port symbol)

/-- An answer with candles in it. -/
def Yields (answer : Except Failure Series) (series : Series) : Prop :=
  answer = .ok series ∧ series.isEmpty = false

/-- A symbol is not refused exactly if its answer yields a series. -/
theorem refusal?_eq_none_iff {answer : Except Failure Series} :
    refusal? answer = none ↔ ∃ series, Yields answer series := by
  cases answer with
  | error failure => simp [refusal?, Yields]
  | ok series => simp [refusal?, Yields]

/-- A symbol is refused for want of candles, or for the reason that it is answered with. -/
theorem refusal?_eq_some {answer : Except Failure Series} {reason : String}
    (hrefusal : refusal? answer = some reason) :
    (∃ series, answer = .ok series ∧ series.isEmpty = true ∧ reason = "no candles") ∨
      ∃ failure, answer = .error failure ∧ reason = failure.message := by
  cases answer with
  | error failure => exact .inr ⟨failure, rfl, (Option.some.inj hrefusal).symm⟩
  | ok series =>
    rw [refusal?, Option.ite_none_right_eq_some] at hrefusal
    exact .inl ⟨series, rfl, hrefusal.1, (Option.some.inj hrefusal.2).symm⟩

/-- The entry that an answer with candles is kept by. -/
def kept? : Answer → Option (String × Series)
  | (symbol, .ok series) => if series.isEmpty then none else some (symbol, series)
  | (_, .error _) => none

/-- The loaded series are the answers that are kept, under the symbols they were asked for. -/
theorem loadedOf_eq (answers : List Answer) :
    loadedOf answers = Keyed.ofList (answers.filterMap kept?) := by
  rw [loadedOf]
  congr 2
  funext answer
  rcases answer with ⟨symbol, failure | series⟩ <;> rfl

/-- An answer is kept exactly if it yields a series. -/
theorem kept?_eq_some_iff {asked symbol : String} {answer : Except Failure Series}
    {series : Series} :
    kept? (asked, answer) = some (symbol, series) ↔ asked = symbol ∧ Yields answer series := by
  cases answer with
  | error failure => simp [kept?, Yields]
  | ok found =>
    simp only [kept?, Yields, Option.ite_none_left_eq_some, Option.some.injEq, Prod.mk.injEq,
      Except.ok.injEq]
    constructor
    · rintro ⟨hcandles, rfl, rfl⟩
      exact ⟨rfl, rfl, by simpa using hcandles⟩
    · rintro ⟨rfl, rfl, hcandles⟩
      exact ⟨by simpa using hcandles, rfl, rfl⟩

/-- A series is kept for a symbol that was asked for and yields it. -/
theorem mem_entries_iff {symbol : String} {series : Series} :
    (symbol, series) ∈ (answersOf port symbols).filterMap kept? ↔
      symbol ∈ symbols ∧ Yields (port symbol) series := by
  simp only [answersOf, List.filterMap_map, List.mem_filterMap, Function.comp_apply,
    kept?_eq_some_iff]
  exact ⟨fun ⟨_, hmem, rfl, hyields⟩ => ⟨hmem, hyields⟩,
    fun ⟨hmem, hyields⟩ => ⟨symbol, hmem, rfl, hyields⟩⟩

/-- What is loaded under a symbol is an answer to it. -/
theorem yields_of_get?_loadedOf {symbol : String} {series : Series}
    (hget : (loadedOf (answersOf port symbols)).get? symbol = some series) :
    symbol ∈ symbols ∧ Yields (port symbol) series := by
  rw [loadedOf_eq] at hget
  obtain ⟨earlier, later, hentries, -⟩ := Keyed.get?_ofList_eq_some_iff.1 hget
  rw [← mem_entries_iff, hentries]
  exact List.mem_append_right _ List.mem_cons_self

/-- A symbol is loaded if it is asked for and there are candles of it. -/
theorem get?_loadedOf_eq_some_iff {symbol : String} {series : Series} :
    (loadedOf (answersOf port symbols)).get? symbol = some series ↔
      symbol ∈ symbols ∧ Yields (port symbol) series := by
  refine ⟨yields_of_get?_loadedOf, fun hyields => ?_⟩
  have hname : symbol ∈ (loadedOf (answersOf port symbols)).names := by
    rw [loadedOf_eq]
    exact Keyed.mem_names_ofList_iff.2 (List.mem_map.2 ⟨_, mem_entries_iff.2 hyields, rfl⟩)
  obtain ⟨found, hfound⟩ := Option.isSome_iff_exists.1 (Keyed.mem_names_iff.1 hname)
  -- A symbol has one answer, so what it is kept with is that answer.
  have hsame := (yields_of_get?_loadedOf hfound).2.1
  rw [hyields.2.1] at hsame
  rw [hfound, Except.ok.inj hsame]

/-- The loaded symbols are those asked for that yield a series. -/
theorem mem_names_loadedOf_iff {symbol : String} :
    symbol ∈ (loadedOf (answersOf port symbols)).names ↔
      symbol ∈ symbols ∧ ∃ series, Yields (port symbol) series := by
  simp only [Keyed.mem_names_iff, Option.isSome_iff_exists, get?_loadedOf_eq_some_iff,
    exists_and_left]

/-- Nothing is loaded exactly if no symbol yields a series. -/
theorem isEmpty_loadedOf_iff :
    (loadedOf (answersOf port symbols)).isEmpty = true ↔
      ∀ symbol ∈ symbols, ¬ ∃ series, Yields (port symbol) series := by
  simp only [Keyed.isEmpty_iff, Option.eq_none_iff_forall_ne_some, ne_eq,
    get?_loadedOf_eq_some_iff, not_and, not_exists]
  exact ⟨fun h symbol hmem series => h symbol series hmem, fun h symbol series hmem =>
    h symbol hmem series⟩

/-- The skipped symbols are those asked for that are refused, each with its reason. -/
theorem mem_skippedOf_iff {skipped : Skipped} :
    skipped ∈ skippedOf (answersOf port symbols) ↔
      skipped.symbol ∈ symbols ∧ refusal? (port skipped.symbol) = some skipped.reason := by
  simp only [skippedOf, answersOf, List.filterMap_map, List.mem_filterMap, Function.comp_apply,
    Option.map_eq_some_iff]
  constructor
  · rintro ⟨symbol, hsymbol, reason, hreason, rfl⟩
    exact ⟨hsymbol, hreason⟩
  · rintro ⟨hsymbol, hreason⟩
    exact ⟨skipped.symbol, hsymbol, skipped.reason, hreason, rfl⟩

/-- The skipped symbols, in the order of the request. -/
theorem symbols_skippedOf :
    (skippedOf (answersOf port symbols)).map Skipped.symbol =
      symbols.filter fun symbol => (refusal? (port symbol)).isSome := by
  rw [skippedOf, answersOf, List.filterMap_map, List.map_filterMap, ← List.filterMap_eq_filter]
  congr 1
  funext symbol
  cases hrefusal : refusal? (port symbol) with
  | none => simp [Option.guard, hrefusal]
  | some reason => simp [Option.guard, hrefusal]

/-- A symbol is skipped exactly if it was asked for and yields no series. -/
theorem mem_symbols_skippedOf_iff {symbol : String} :
    symbol ∈ (skippedOf (answersOf port symbols)).map Skipped.symbol ↔
      symbol ∈ symbols ∧ ¬ ∃ series, Yields (port symbol) series := by
  rw [symbols_skippedOf, List.mem_filter, ← refusal?_eq_none_iff, Option.isSome_iff_ne_none]

/-- A request fails exactly if no symbol yields a series, and then it names all of them. -/
theorem ofAnswers_eq_error_iff {failure : Failure} :
    ofAnswers (answersOf port symbols) = .error failure ↔
      (∀ symbol ∈ symbols, ¬ ∃ series, Yields (port symbol) series) ∧
        failure = .noData (String.intercalate "," symbols) := by
  have hsymbols : (answersOf port symbols).map (·.1) = symbols := by
    simp [answersOf, Function.comp_def]
  rw [← isEmpty_loadedOf_iff, ofAnswers, hsymbols]
  split
  · rename_i hempty
    simp [hempty, eq_comm]
  · rename_i hloaded
    simp [hloaded]

/-- A request succeeds exactly if some symbol yields a series, with what is loaded and what is
    skipped. -/
theorem ofAnswers_eq_ok_iff {loaded : Universe} :
    ofAnswers (answersOf port symbols) = .ok loaded ↔
      (∃ symbol ∈ symbols, ∃ series, Yields (port symbol) series) ∧
        loaded = ⟨loadedOf (answersOf port symbols), skippedOf (answersOf port symbols)⟩ := by
  have hempty := @isEmpty_loadedOf_iff port symbols
  rw [ofAnswers]
  split
  · rename_i hnone
    simpa using fun symbol hmem series hyields _ => hempty.1 hnone symbol hmem ⟨series, hyields⟩
  · rename_i hsome
    rw [hempty] at hsome
    push Not at hsome
    simp [hsome, eq_comm]

/-- A universe splits a request: it has each symbol once, with the series that the symbol is answered
    with if there are candles in it, and else among those that are skipped. -/
structure Splits (port : String → Except Failure Series) (symbols : List String)
    (loaded : Universe) : Prop where
  loaded_or_skipped : ∀ symbol ∈ symbols,
    Xor (symbol ∈ loaded.series.names) (symbol ∈ loaded.skipped.map Skipped.symbol)
  requested : ∀ symbol,
    symbol ∈ loaded.series.names ∨ symbol ∈ loaded.skipped.map Skipped.symbol →
      symbol ∈ symbols
  series : ∀ symbol series, loaded.series.get? symbol = some series ↔
    symbol ∈ symbols ∧ port symbol = .ok series ∧ series.isEmpty = false
  reason : ∀ skipped ∈ loaded.skipped,
    (∃ series, port skipped.symbol = .ok series ∧ series.isEmpty = true ∧
      skipped.reason = "no candles") ∨
    ∃ failure, port skipped.symbol = .error failure ∧ skipped.reason = failure.message
  once : (loaded.skipped.map Skipped.symbol).Nodup
  inOrder : (loaded.skipped.map Skipped.symbol).Sublist symbols

/-- What is loaded and what is skipped are the request, split in two. -/
theorem splits_ofAnswers (hdistinct : symbols.Nodup)
    (port : String → Except Failure Series) :
    Splits port symbols
      ⟨loadedOf (answersOf port symbols), skippedOf (answersOf port symbols)⟩ := by
  have hsublist : ((skippedOf (answersOf port symbols)).map Skipped.symbol).Sublist symbols := by
    rw [symbols_skippedOf]
    exact List.filter_sublist
  refine ⟨fun symbol hsymbol => ?_, fun symbol hsymbol => ?_,
    fun symbol series => get?_loadedOf_eq_some_iff, fun skipped hskipped => ?_,
    hdistinct.sublist hsublist, hsublist⟩
  · rw [mem_names_loadedOf_iff, mem_symbols_skippedOf_iff]
    by_cases hyields : ∃ series, Yields (port symbol) series
    · exact .inl ⟨⟨hsymbol, hyields⟩, fun hskipped => hskipped.2 hyields⟩
    · exact .inr ⟨⟨hsymbol, hyields⟩, fun hloaded => hyields hloaded.2⟩
  · rw [mem_names_loadedOf_iff, mem_symbols_skippedOf_iff] at hsymbol
    exact hsymbol.elim And.left And.left
  · exact refusal?_eq_some (mem_skippedOf_iff.1 hskipped).2

/-- The universe of a request depends on the order of the symbols only in the order of those that are
    skipped. -/
theorem exists_ofAnswers_of_perm {other : List String} {loaded : Universe}
    (hperm : other.Perm symbols)
    (hanswers : ofAnswers (answersOf port symbols) = .ok loaded) :
    ∃ reordered, ofAnswers (answersOf port other) = .ok reordered ∧
      reordered.series = loaded.series ∧
      ∀ skipped, skipped ∈ reordered.skipped ↔ skipped ∈ loaded.skipped := by
  obtain ⟨⟨symbol, hsymbol, hyields⟩, rfl⟩ := ofAnswers_eq_ok_iff.1 hanswers
  refine ⟨_, ofAnswers_eq_ok_iff.2 ⟨⟨symbol, hperm.mem_iff.2 hsymbol, hyields⟩, rfl⟩,
    Keyed.ext_get? fun name => Option.ext fun series => ?_, fun skipped => ?_⟩
  · rw [get?_loadedOf_eq_some_iff, get?_loadedOf_eq_some_iff, hperm.mem_iff]
  · rw [mem_skippedOf_iff, mem_skippedOf_iff, hperm.mem_iff]

end Universe

namespace Feed

open Files

/-- What a tree of files answers to a symbol. -/
def port (tree : Tree) (directory symbol : String) : Except Failure Series :=
  match tree.read (pathOf directory symbol) with
  | .ok content => series (pathOf directory symbol) content
  | .error fault => .error (.data (.unreadable (pathOf directory symbol) fault))

/-- From files kept as a value, a symbol is fetched as its port says, and the files stay as they
    are. -/
theorem fetch_access (tree : Tree) (directory symbol : String) :
    (fetch Tree.access directory symbol).run tree = (port tree directory symbol, tree) := by
  change (match tree.read (pathOf directory symbol) with
    | .ok content => return series (pathOf directory symbol) content
    | .error fault => return .error (.data (.unreadable (pathOf directory symbol) fault)) :
      StateM Tree (Except Failure Series)).run tree = _
  rw [port]
  cases tree.read (pathOf directory symbol) <;> rfl

/-- The symbols of a run are answered one by one, and the files stay as they are. -/
theorem answers_access (tree : Tree) (directory : String) (symbols : List String) :
    (answers Tree.access directory symbols).run tree =
      (Universe.answersOf (port tree directory) symbols, tree) := by
  induction symbols with
  | nil => rfl
  | cons symbol rest ih =>
    rw [answers] at ih ⊢
    simp only [List.mapM_cons, StateT.run_bind, fetch_access, pure_bind, StateT.run_pure,
      bind_assoc]
    exact congrArg
      (fun result => ((symbol, port tree directory symbol) :: result.1, result.2)) ih

end Feed

namespace Universe

variable {symbols : List String}

/-- A request fails, and then names all of its symbols, exactly when none of them is answered with
    candles. Else its universe splits it, and any order of the symbols leads to the same series and
    to the same skipped symbols. The files of a directory are such a source of answers: each symbol
    is answered with what its own file holds, whatever else is asked for. -/
theorem request_splits (hdistinct : symbols.Nodup) (port : String → Except Failure Series) :
    ((∃ failure, ofAnswers (answersOf port symbols) = .error failure) ↔
      ∀ symbol ∈ symbols, ¬ ∃ series, port symbol = .ok series ∧ series.isEmpty = false) ∧
    (∀ failure, ofAnswers (answersOf port symbols) = .error failure →
      failure = .noData (String.intercalate "," symbols)) ∧
    (∀ loaded, ofAnswers (answersOf port symbols) = .ok loaded →
      Splits port symbols loaded ∧
        ∀ other : List String, other.Perm symbols →
          ∃ reordered, ofAnswers (answersOf port other) = .ok reordered ∧
            reordered.series = loaded.series ∧
            ∀ skipped, skipped ∈ reordered.skipped ↔ skipped ∈ loaded.skipped) ∧
    ∀ tree directory, (Feed.answers Files.Tree.access directory symbols).run tree =
      (answersOf (Feed.port tree directory) symbols, tree) := by
  refine ⟨⟨?_, fun hnone => ⟨_, ofAnswers_eq_error_iff.2 ⟨hnone, rfl⟩⟩⟩,
    fun failure hfailure => (ofAnswers_eq_error_iff.1 hfailure).2,
    fun loaded hanswers =>
      ⟨?_, fun other hperm => exists_ofAnswers_of_perm hperm hanswers⟩,
    fun tree directory => Feed.answers_access tree directory symbols⟩
  · rintro ⟨failure, hfailure⟩
    exact (ofAnswers_eq_error_iff.1 hfailure).1
  · rw [(ofAnswers_eq_ok_iff.1 hanswers).2]
    exact splits_ofAnswers hdistinct port

/-- A symbol with a candle between one without candles and one that nothing is known of. -/
theorem request_splits_three :
    let candle : Series := ⟨[⟨1, 1, 1, 1, 1, 1⟩], List.pairwise_singleton _ _⟩
    let port : String → Except Failure Series := fun symbol =>
      if symbol = "AAA" then .ok candle
      else if symbol = "EMPTY" then .ok .empty
      else .error (.noData symbol)
    ["NONE", "AAA", "EMPTY"].Nodup ∧
      ∃ loaded, ofAnswers (answersOf port ["NONE", "AAA", "EMPTY"]) = .ok loaded ∧
        loaded.series.names = ["AAA"] ∧
        loaded.skipped = [⟨"NONE", "no data for NONE"⟩, ⟨"EMPTY", "no candles"⟩] ∧
        Splits port ["NONE", "AAA", "EMPTY"] loaded ∧
        ∃ reordered, ofAnswers (answersOf port ["EMPTY", "NONE", "AAA"]) = .ok reordered ∧
          reordered.series = loaded.series ∧
          ∀ skipped, skipped ∈ reordered.skipped ↔ skipped ∈ loaded.skipped := by
  intro candle port
  have hdistinct : ["NONE", "AAA", "EMPTY"].Nodup := by decide
  obtain ⟨hsplits, hreordered⟩ := (request_splits hdistinct port).2.2.1 _ rfl
  exact ⟨hdistinct, _, rfl, rfl, rfl, hsplits, hreordered ["EMPTY", "NONE", "AAA"] (by decide)⟩

end Universe

end Candlewick
