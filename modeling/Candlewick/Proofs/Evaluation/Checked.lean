import Candlewick.Proofs.Builtin.Names
import Candlewick.Proofs.Evaluation.Recomputation
import Candlewick.Proofs.Indicator.WarmUp

namespace Candlewick

/-- Why the machine stops: an index is no word, a place is not there, or a table of functions leaves
    out the one that is called. -/
inductive Stop where
  | trap (trap : Indicator.Trap)
  | noBranch

/-- An evaluation on a machine that looks up every argument at its place, computes indices in words,
    takes every run of candles within its list and has the indicators computed step by step. A fault
    is one of its outcomes, a stop is not. -/
abbrev Checked (α : Type) : Type :=
  ExceptT EvalFault (StateT Moment (Except Stop)) α

namespace Checked

variable {α β : Type}

/-- An evaluation in which there is nothing to check. -/
def run (evaluation : Evaluation α) : Checked α :=
  fun start : Moment => Except.ok (evaluation.outcome start)

/-- Stops. -/
def halt (why : Stop) : Checked α :=
  fun _ : Moment => Except.error why

/-- The sum of two words. -/
def plus (a b : Nat) : Checked Nat :=
  if a + b < Indicator.wordLimit then pure (a + b) else halt (.trap .noWord)

/-- The difference of two words. -/
def minus (a b : Nat) : Checked Nat :=
  if b ≤ a then pure (a - b) else halt (.trap .noWord)

/-- The value at a place of a list. -/
def read (values : List β) (place : Nat) : Checked β :=
  match values[place]? with
  | some value => pure value
  | none => halt (.trap .noPlace)

/-- The values of a list before a place. -/
def before (values : List β) (place : Nat) : Checked (List β) :=
  if place ≤ values.length then pure (values.take place) else halt (.trap .noPlace)

/-- The entries of an indicator that is computed step by step. -/
def entries (machine : Indicator.Machine Float β) : Checked β :=
  match machine [] with
  | .ok (value, _) => pure value
  | .error trap => halt (.trap trap)

/-- The candles up to the present one. -/
def history (series : Series) : Checked (List Candle) := do
  let _ ← run (Evaluation.candle series)
  let behind ← plus (← run Evaluation.index) 1
  before series.candles (min behind series.length)

/-- An evaluation at another index. Afterwards the index is the old one. -/
def atIndex (index : Nat) (evaluation : Checked α) : Checked α :=
  fun start : Moment => do
    let (outcome, later) ←
      (evaluation : StateT Moment (Except Stop) _) { start with index := index }
    return (outcome, { later with index := start.index })

/-- An argument of a call. -/
structure Argument where
  node : Node
  value : Checked Value

/-- An argument whose evaluation has nothing to check. -/
def Argument.ofEvaluated (argument : Candlewick.Argument) : Argument :=
  ⟨argument.node, run argument.value⟩

/-- The study that a function is, if it is one. -/
def study? : Builtin → Option Study
  | .study study => some study
  | _ => none

/-- A function of a price field and a period. -/
def applyStudy (series : Series) (callee : String) (builtin : Builtin) (arguments : List Argument) :
    Checked Value := do
  let source ← read arguments 0
  let field ← run (Evaluation.settle (Call.sourceField callee source.node))
  let length ← read arguments 1
  let period ← run (Evaluation.settle (Call.period callee (← length.value)))
  let history ← history series
  match study? builtin with
  | some study =>
    let entries ← entries (Indicator.Machine.study study (fieldValues history field) period)
    run (Call.latestEntry callee entries)
  | none => halt .noBranch

/-- A function of candles and a period. -/
def applyRange (series : Series) (callee : String) (arguments : List Argument) : Checked Value := do
  let source ← read arguments 0
  let _ ← source.value
  let length ← read arguments 1
  let period ← run (Evaluation.settle (Call.period callee (← length.value)))
  let history ← history series
  let entries ← entries (Indicator.Machine.atr history period)
  run (Call.latestEntry callee entries)

/-- The value of a function of numbers if one of its arguments is `na`. -/
def ofNa : Builtin → Value
  | .pairing .crossover | .pairing .crossunder => .bool false
  | _ => .na

/-- A function of plain numbers. -/
def applyScalar (callee : String) (builtin : Builtin) (values : List Value) : Checked Value := do
  if values.any (· = .na) then
    return ofNa builtin
  else
    let numbers ← run (Evaluation.settle (values.mapM (Call.number callee)))
    match builtin, numbers with
    | .abs, [a] => return .number a.abs
    | .pairing pairing, [a, b] => return pairing.apply a b
    | _, _ => halt .noBranch

/-- A call by name. -/
def call (series : Series) (callee : String) (arguments : List Argument) : Checked Value :=
  match Builtin.recognize? callee with
  | none => throw (.unknownFunction callee)
  | some builtin =>
    if arguments.length = builtin.signature.arity then
      match builtin.signature with
      | .sourcePeriod => applyStudy series callee builtin arguments
      | .candlePeriod => applyRange series callee arguments
      | .scalar _ => do applyScalar callee builtin (← arguments.mapM Argument.value)
    else
      throw (.wrongArity callee builtin arguments.length)

/-- The values of trading rules in turn. -/
def votes (buy sell : Bool) : List (Checked Value) → Checked (Bool × Bool)
  | [] => pure (buy, sell)
  | rule :: rest => do
    match ← rule with
    | .bool true => votes true sell rest
    | .bool false => votes buy true rest
    | _ => votes buy sell rest

mutual

/-- The value of a tree. -/
def evaluate (series : Series) : Node → Checked Value
  | .number value => pure (.number value)
  | .text content => pure (.text content)
  | .truth value => pure (.bool value)
  | .name word => run (Evaluation.lookup word)
  | .price field => do return .number ((← run (Evaluation.candle series)).field field)
  | .binary operator left right => do
    let left ← evaluate series left
    let right ← evaluate series right
    run (Evaluation.settle (left.binary operator right))
  | .unary operator operand => do
    let operand ← evaluate series operand
    run (Evaluation.settle (operand.unary operator))
  | .call callee arguments => call series callee (evaluateArguments series arguments)
  | .ifThen condition consequent => do
    if (← evaluate series condition).isTrue then evaluate series consequent else return .na
  | .ifThenElse condition consequent alternative => do
    if (← evaluate series condition).isTrue then
      evaluate series consequent
    else
      evaluate series alternative
  | .assign target value => do
    let value ← evaluate series value
    run (Evaluation.bind target value)
    return value
  | .buy condition => do
    return if (← evaluate series condition).isTrue then .bool true else .na
  | .sell condition => do
    return if (← evaluate series condition).isTrue then .bool false else .na
  | .strategy _ rules => do
    return Evaluation.decision (← votes false false (evaluateEach series rules))
  | .past object offset => do
    let offset ← run (Evaluation.settle (Evaluation.historyOffset (← evaluate series offset)))
    let index ← run Evaluation.index
    if index < offset then
      throw (.beforeFirstCandle offset index)
    else
      atIndex (← minus index offset) (evaluate series object)

/-- The arguments of a call. -/
def evaluateArguments (series : Series) : List Node → List Argument
  | [] => []
  | node :: rest => ⟨node, evaluate series node⟩ :: evaluateArguments series rest

/-- The evaluations of several trees. -/
def evaluateEach (series : Series) : List Node → List (Checked Value)
  | [] => []
  | node :: rest => evaluate series node :: evaluateEach series rest

end

@[simp] theorem run_pure (value : α) : run (pure value) = pure value :=
  rfl

@[simp] theorem run_throw (fault : EvalFault) : run (throw fault : Evaluation α) = throw fault :=
  rfl

/-- What follows a step without checks begins where the step ends. -/
theorem run_bind_apply (evaluation : Evaluation β) (next : β → Checked α) (start : Moment) :
    (run evaluation >>= next : Checked α) start =
      match evaluation.outcome start with
      | (.ok value, later) => next value later
      | (.error fault, later) => .ok (.error fault, later) := by
  change Except.bind (Except.ok (evaluation.outcome start))
    (fun pair => ExceptT.bindCont next pair.1 pair.2) = _
  rcases evaluation.outcome start with ⟨_ | value, later⟩ <;> rfl

/-- The machine takes steps in sequence as the evaluation does. -/
@[simp] theorem run_bind (evaluation : Evaluation β) (next : β → Evaluation α) :
    run (evaluation >>= next) = run evaluation >>= fun value => run (next value) := by
  funext start
  rw [run_bind_apply, run, Evaluation.outcome_bind]
  rcases evaluation.outcome start with ⟨_ | value, later⟩ <;> rfl

theorem run_ite {condition : Prop} [Decidable condition] (one other : Evaluation α) :
    run (if condition then one else other) = if condition then run one else run other := by
  split <;> rfl

/-- An evaluation at another index is one on the machine. -/
theorem run_atIndex (index : Nat) (evaluation : Evaluation α) :
    run (Evaluation.atIndex index evaluation) = atIndex index (run evaluation) := by
  funext start
  rw [run, Evaluation.outcome_atIndex]
  rfl

/-- A row that the indicator machine gives is what the machine goes on with. -/
theorem entries_eq {machine : Indicator.Machine Float (List (Option Float))}
    {row : List (Option Float)} {settled : Prop} (hgives : machine.Gives row settled) :
    entries machine = run (pure row) := by
  rw [entries, hgives.run_eq.1]
  rfl

section

variable {series : Series}

/-- What follows the history depends on no more candles than there are in the series. -/
theorem run_history_bind_congr {next next' : List Candle → Checked α}
    (hnext : ∀ candles, candles.length ≤ series.length → next candles = next' candles) :
    (run (Evaluation.history series) >>= next) = run (Evaluation.history series) >>= next' := by
  funext start
  rw [run_bind_apply, run_bind_apply]
  by_cases hindex : start.index < series.length
  · have hlength : (series.history start.index).length ≤ series.length := List.length_take_le' _ _
    rw [Evaluation.outcome_history hindex]
    dsimp only
    rw [hnext _ hlength]
  · rw [Evaluation.history, Evaluation.outcome_bind, Evaluation.outcome_candle_of_le (by omega)]

variable (hlimit : series.length < Indicator.wordLimit)
include hlimit

/-- The history is a run of candles of the series, and where it ends is a word. -/
theorem history_eq : history series = run (Evaluation.history series) := by
  funext start
  rw [history, Evaluation.history, run_bind, run_bind_apply, run_bind_apply]
  by_cases hindex : start.index < series.length
  · rw [Evaluation.outcome_candle hindex]
    have hword : start.index + 1 < Indicator.wordLimit := by omega
    have hend : min (start.index + 1) series.length ≤ series.candles.length := Nat.min_le_right _ _
    have hbehind : plus start.index 1 = pure (start.index + 1) := if_pos hword
    have hcandles : before series.candles (min (start.index + 1) series.length) =
        pure (series.history start.index) := by
      rw [before, if_pos hend, Nat.min_eq_left (by omega), Series.history]
    change (plus start.index 1 >>= fun behind => before series.candles (min behind series.length) :
      Checked _) start = _
    rw [hbehind, pure_bind, hcandles]
    rfl
  · rw [Evaluation.outcome_candle_of_le (by omega)]

/-- The branch for functions that are no studies is not taken. -/
theorem applyStudy_eq (callee : String) (study : Study) (source length : Candlewick.Argument) :
    applyStudy series callee (.study study) [.ofEvaluated source, .ofEvaluated length] =
      run (Call.apply series callee (.study study) [source, length]) := by
  have hfirst : read [Argument.ofEvaluated source, .ofEvaluated length] 0 =
      pure (.ofEvaluated source) := rfl
  have hsecond : read [Argument.ofEvaluated source, .ofEvaluated length] 1 =
      pure (.ofEvaluated length) := rfl
  simp only [applyStudy, Call.apply, run_bind, history_eq hlimit, hfirst, hsecond, pure_bind]
  refine bind_congr fun field => bind_congr fun value => bind_congr fun period => ?_
  refine run_history_bind_congr fun candles hcandles => ?_
  have hvalues : (fieldValues candles field).length < Indicator.wordLimit := by
    rw [fieldValues, List.length_map]
    omega
  have hentries := entries_eq (study.gives hvalues period)
  rw [study?]
  dsimp only
  rw [hentries, run_pure, pure_bind, study.entries_eq_entriesOver]

/-- The call over ranges finds the arguments that it looks up. -/
theorem applyRange_eq (callee : String) (source length : Candlewick.Argument) :
    applyRange series callee [.ofEvaluated source, .ofEvaluated length] =
      run (Call.apply series callee .averageRange [source, length]) := by
  have hfirst : read [Argument.ofEvaluated source, .ofEvaluated length] 0 =
      pure (.ofEvaluated source) := rfl
  have hsecond : read [Argument.ofEvaluated source, .ofEvaluated length] 1 =
      pure (.ofEvaluated length) := rfl
  simp only [applyRange, Call.apply, run_bind, history_eq hlimit, hfirst, hsecond, pure_bind]
  refine bind_congr fun _ => bind_congr fun value => bind_congr fun period => ?_
  refine run_history_bind_congr fun candles hcandles => ?_
  rw [entries_eq (Indicator.Machine.gives_atr (by omega) period), run_pure, pure_bind]

end

/-- The branch for other numbers of values is not taken. -/
theorem applyScalar_pairing (callee : String) (pairing : Pairing) (first second : Value) :
    applyScalar callee (.pairing pairing) [first, second] =
      run (Evaluation.settle (Call.pair pairing callee first second)) := by
  by_cases hna : first = .na ∨ second = .na
  · have hany : [first, second].any (· = .na) = true := by simpa using hna
    rw [applyScalar, if_pos hany, Call.pair, if_pos hna]
    cases pairing <;> rfl
  · have hany : ¬ [first, second].any (· = .na) = true := by simpa using hna
    rw [applyScalar, if_neg hany, Call.pair, if_neg hna]
    cases first <;> cases second <;> rfl

/-- A call of one value finds it at the first place. -/
theorem applyScalar_abs (callee : String) (value : Value) :
    applyScalar callee .abs [value] = run (Evaluation.settle (Call.magnitude callee value)) := by
  cases value <;> rfl

/-- The numbers of a function are the values of its arguments in turn. -/
theorem values_pairing_eq (series : Series) (callee : String) (pairing : Pairing)
    (first second : Candlewick.Argument) :
    ([Argument.ofEvaluated first, .ofEvaluated second].mapM Argument.value >>=
        applyScalar callee (.pairing pairing)) =
      run (Call.apply series callee (.pairing pairing) [first, second]) := by
  simp only [List.mapM_cons, List.mapM_nil, bind_assoc, pure_bind, applyScalar_pairing]
  change _ = run (first.value >>= fun _ => second.value >>= fun _ => _)
  rw [run_bind]
  exact bind_congr fun value => (run_bind _ _).symm

/-- The only argument is evaluated and passed on as the only value. -/
theorem values_abs_eq (series : Series) (callee : String) (argument : Candlewick.Argument) :
    ([Argument.ofEvaluated argument].mapM Argument.value >>= applyScalar callee .abs) =
      run (Call.apply series callee .abs [argument]) := by
  simp only [List.mapM_cons, List.mapM_nil, bind_assoc, pure_bind, applyScalar_abs]
  exact (run_bind _ _).symm

/-- No call reaches a branch in which the machine stops. -/
theorem call_eq {series : Series} (hlimit : series.length < Indicator.wordLimit) (callee : String)
    (arguments : List Candlewick.Argument) :
    call series callee (arguments.map .ofEvaluated) =
      run (Candlewick.call series callee arguments) := by
  rw [call, Builtin.recognize?_eq_ofName?, Candlewick.call]
  cases Builtin.ofName? callee with
  | none => rfl
  | some builtin =>
    rcases arguments with _ | ⟨first, _ | ⟨second, _ | ⟨third, rest⟩⟩⟩
    case nil => cases builtin <;> rfl
    case cons.nil =>
      cases builtin with
      | abs => exact values_abs_eq series callee first
      | study | averageRange | pairing => rfl
    case cons.cons.nil =>
      cases builtin with
      | study study => exact applyStudy_eq hlimit callee study first second
      | averageRange => exact applyRange_eq hlimit callee first second
      | pairing pairing => exact values_pairing_eq series callee pairing first second
      | abs => rfl
    case cons.cons.cons =>
      -- no function takes that many
      have hlength : (List.map Argument.ofEvaluated (first :: second :: third :: rest)).length ≠
          builtin.signature.arity := by
        rw [Builtin.arity_signature]
        cases builtin <;> simp [Builtin.arity]
      dsimp only
      rw [if_neg hlength, List.length_map]
      cases builtin <;> rfl

/-- The rules of a strategy vote on the machine as they do otherwise. -/
theorem votes_eq (buy sell : Bool) (rules : List (Evaluation Value)) :
    votes buy sell (rules.map run) = run (Evaluation.votes buy sell rules) := by
  induction rules generalizing buy sell with
  | nil => rfl
  | cons rule rest ih =>
    rw [List.map_cons, votes, Evaluation.votes, run_bind]
    congr 1
    funext value
    simp only [ih]
    rcases value with _ | (_ | _) | _ | _ <;> rfl

section

variable {series : Series} {nodes : List Node}
  (hnodes : ∀ node ∈ nodes, evaluate series node = run (Candlewick.evaluate series node))
include hnodes

theorem evaluateArguments_eq : evaluateArguments series nodes =
    (Candlewick.evaluateArguments series nodes).map .ofEvaluated := by
  induction nodes with
  | nil => rfl
  | cons node rest ih =>
    obtain ⟨hnode, hrest⟩ := List.forall_mem_cons.1 hnodes
    rw [evaluateArguments, hnode, ih hrest]
    rfl

theorem evaluateEach_eq :
    evaluateEach series nodes = (Candlewick.evaluateEach series nodes).map run := by
  induction nodes with
  | nil => rfl
  | cons node rest ih =>
    obtain ⟨hnode, hrest⟩ := List.forall_mem_cons.1 hnodes
    rw [evaluateEach, hnode, ih hrest]
    rfl

end

/-- The index that an offset leads to is a word if the offset is no greater than the index. -/
theorem atIndex_minus {index offset : Nat} (hoffset : ¬ index < offset)
    (evaluation : Evaluation α) :
    (minus index offset >>= fun place => atIndex place (run evaluation)) =
      run (Evaluation.atIndex (index - offset) evaluation) := by
  rw [minus, if_pos (by omega), pure_bind, run_atIndex]

/-- The machine evaluates a tree without a stop, to the same outcome. -/
theorem evaluate_eq {series : Series} (hlimit : series.length < Indicator.wordLimit) (node : Node) :
    evaluate series node = run (Candlewick.evaluate series node) := by
  induction node using Node.inductionOnChildren with | step node ih => ?_
  simp only [Node.children] at ih
  cases node with
  | number | text | truth | name => rfl
  | price field =>
    rw [evaluate, Candlewick.evaluate]
    simp only [run_bind, run_pure]
  | binary operator left right =>
    rw [evaluate, Candlewick.evaluate, ih left (by simp), ih right (by simp)]
    simp only [run_bind]
  | unary operator operand =>
    rw [evaluate, Candlewick.evaluate, ih operand (by simp)]
    simp only [run_bind]
  | call callee arguments =>
    rw [evaluate, Candlewick.evaluate, evaluateArguments_eq ih, call_eq hlimit]
  | ifThen condition consequent =>
    rw [evaluate, Candlewick.evaluate, ih condition (by simp), ih consequent (by simp)]
    simp only [run_bind, run_ite, run_pure]
  | ifThenElse condition consequent alternative =>
    rw [evaluate, Candlewick.evaluate, ih condition (by simp), ih consequent (by simp),
      ih alternative (by simp)]
    simp only [run_bind, run_ite]
  | assign target value =>
    rw [evaluate, Candlewick.evaluate, ih value (by simp)]
    simp only [run_bind, run_pure]
  | buy condition | sell condition =>
    rw [evaluate, Candlewick.evaluate, ih condition (by simp)]
    simp only [run_bind, run_pure]
  | strategy title rules =>
    rw [evaluate, Candlewick.evaluate, evaluateEach_eq ih, votes_eq]
    simp only [run_bind, run_pure]
  | past object offset =>
    rw [evaluate, Candlewick.evaluate, ih object (by simp), ih offset (by simp)]
    simp only [run_bind, run_ite, run_throw]
    refine bind_congr fun value => bind_congr fun offset => bind_congr fun index => ?_
    split
    · rfl
    · rename_i hoffset
      exact atIndex_minus hoffset _

end Checked

end Candlewick
