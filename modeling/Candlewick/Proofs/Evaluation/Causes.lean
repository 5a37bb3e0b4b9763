import Candlewick.Proofs.Evaluation.Checked
import Candlewick.Proofs.Evaluation.History
import Candlewick.Proofs.Evaluation.Origin

namespace Candlewick

open Decimal Evaluation

/-- A fault that is not about the name of a function nor, if the index is inside the series, about
    an index. -/
structure Ordinary (series : Series) (index : Nat) (fault : EvalFault) : Prop where
  name : fault.kind ≠ .unknownFunction
  index : index < series.length → fault.kind ≠ .invalidIndex

section Kinds

variable {series : Series} {place : Nat} {fault : EvalFault}

/-- A fault of any other kind is an ordinary one. -/
theorem Ordinary.of_kind {kind : EvalKind} (hkind : fault.kind = kind)
    (hother : kind ≠ .unknownFunction ∧ kind ≠ .invalidIndex) : Ordinary series place fault :=
  ⟨hkind.trans_ne hother.1, fun _ => hkind.trans_ne hother.2⟩

theorem kind_of_arithmetic {operator : BinaryOperator} {f : Float → Float → Float}
    {left right : Value} (hfault : Value.arithmetic operator f left right = .error fault) :
    fault.kind = .typeMismatch := by
  unfold Value.arithmetic at hfault
  split at hfault <;> cases hfault
  rfl

theorem kind_of_order {operator : BinaryOperator} {numbers : Float → Float → Bool}
    {texts : String → String → Bool} {left right : Value}
    (hfault : Value.order operator numbers texts left right = .error fault) :
    fault.kind = .typeMismatch := by
  unfold Value.order at hfault
  split at hfault <;> cases hfault
  rfl

/-- An operator between two operands only fails for their types. -/
theorem kind_of_binary {operator : BinaryOperator} {left right : Value}
    (hfault : left.binary operator right = .error fault) : fault.kind = .typeMismatch := by
  cases operator with
  | and | or | eq | ne => cases hfault
  | gt | ge | lt | le => exact kind_of_order hfault
  | sub | mul | div | mod | pow => exact kind_of_arithmetic hfault
  | add =>
    simp only [Value.binary] at hfault
    split at hfault
    · cases hfault
    · exact kind_of_arithmetic hfault

theorem kind_of_unary {operator : UnaryOperator} {operand : Value}
    (hfault : operand.unary operator = .error fault) : fault.kind = .typeMismatch := by
  unfold Value.unary at hfault
  split at hfault <;> cases hfault
  rfl

/-- What is no number where one is asked for has the wrong type. -/
theorem kind_of_number {callee : String} {value : Value}
    (hfault : Call.number callee value = .error fault) : fault.kind = .typeMismatch := by
  unfold Call.number at hfault
  split at hfault <;> cases hfault
  rfl

theorem kind_of_pair {pairing : Pairing} {callee : String} {first second : Value}
    (hfault : Call.pair pairing callee first second = .error fault) :
    fault.kind = .typeMismatch := by
  unfold Call.pair at hfault
  split at hfault
  · cases hfault
  · cases hfirst : Call.number callee first with
    | error fault' =>
      rw [hfirst] at hfault
      cases hfault
      exact kind_of_number hfirst
    | ok a =>
      cases hsecond : Call.number callee second with
      | error fault' =>
        rw [hfirst, hsecond] at hfault
        cases hfault
        exact kind_of_number hsecond
      | ok b =>
        rw [hfirst, hsecond] at hfault
        cases hfault

theorem kind_of_magnitude {callee : String} {value : Value}
    (hfault : Call.magnitude callee value = .error fault) : fault.kind = .typeMismatch := by
  unfold Call.magnitude at hfault
  split at hfault
  · cases hfault
  · cases hnumber : Call.number callee value with
    | error fault' =>
      rw [hnumber] at hfault
      cases hfault
      exact kind_of_number hnumber
    | ok n =>
      rw [hnumber] at hfault
      cases hfault

/-- A source that is no field is an invalid argument. -/
theorem kind_of_sourceField {callee : String} {source : Node}
    (hfault : Call.sourceField callee source = .error fault) : fault.kind = .invalidArgument := by
  unfold Call.sourceField at hfault
  split at hfault <;> cases hfault
  rfl

/-- A period that is no whole number from one on is an invalid argument. -/
theorem kind_of_period {callee : String} {value : Value}
    (hfault : Call.period callee value = .error fault) : fault.kind = .invalidArgument := by
  unfold Call.period at hfault
  split at hfault
  · split at hfault <;> cases hfault
    rfl
  · cases hfault
    rfl

end Kinds

section Steps

variable {series : Series} {start : Moment} {fault : EvalFault} {callee : String}

/-- Where there is no present candle, the fault says so. -/
theorem ordinary_of_candle (hfault : (candle series).HasFault start fault) :
    Ordinary series start.index fault := by
  by_cases hindex : start.index < series.length
  · rw [HasFault, outcome_candle hindex] at hfault
    cases hfault
  · rw [HasFault, outcome_candle_of_le (by omega)] at hfault
    cases hfault
    have hkind : (EvalFault.noCandle start.index).kind = .invalidIndex := rfl
    exact ⟨hkind.trans_ne (by decide), fun hinside => absurd hinside hindex⟩

/-- A missing entry is a lack of history. -/
theorem ordinary_of_latestEntry {entries : List (Option Float)} {place : Nat}
    (hfault : (Call.latestEntry callee entries).HasFault start fault) :
    Ordinary series place fault := by
  have hkind : fault.kind = .insufficientHistory := by
    unfold Call.latestEntry at hfault
    split at hfault
    · split at hfault
      · rw [← Except.error.inj hfault]
        rfl
      · cases hfault
    · rw [← Except.error.inj hfault]
      rfl
  exact .of_kind hkind (by decide)

/-- An indicator over the history only lacks history, or a present candle. -/
theorem ordinary_of_history {entries : List Candle → List (Option Float)}
    (hfault : (history series >>= fun candles =>
      Call.latestEntry callee (entries candles)).HasFault start fault) :
    Ordinary series start.index fault := by
  by_cases hindex : start.index < series.length
  · exact ordinary_of_latestEntry ((hasFault_bind_of_ok (outcome_history hindex)).1 hfault)
  · have hcandle : (candle series).HasFault start (.noCandle start.index) :=
      congrArg Prod.fst (outcome_candle_of_le (by omega))
    have hnone : (history series >>= fun candles =>
        Call.latestEntry callee (entries candles)).HasFault start (.noCandle start.index) :=
      hcandle.bind.bind
    rw [hfault.unique hnone]
    exact ordinary_of_candle hcandle

/-- An indicator has no other faults than those of its period and of the history. -/
theorem ordinary_of_period {value : Value} {entries : Nat → List Candle → List (Option Float)}
    (hfault : (settle (Call.period callee value) >>= fun period => history series >>= fun candles =>
      Call.latestEntry callee (entries period candles)).HasFault start fault) :
    Ordinary series start.index fault := by
  rcases hasFault_settle_bind_iff.1 hfault with hperiod | ⟨period, -, hhistory⟩
  · exact .of_kind (kind_of_period hperiod) (by decide)
  · exact ordinary_of_history hhistory

end Steps

section Valued

variable {series : Series} {start : Moment} {callee : String} {fault : EvalFault}

/-- The next tree has its turn where the first one has left the moment. -/
theorem AllValued.exists_outcome {first : Node} {rest : List Node}
    (hvalued : AllValued series (first :: rest) start) :
    ∃ value later, (evaluate series first).outcome start = (.ok value, later) ∧
      later.index = start.index ∧ AllValued series rest later := by
  obtain ⟨value, hvalue⟩ := hvalued first start .head
  obtain ⟨later, houtcome⟩ := hvalue.exists_outcome
  exact ⟨value, later, houtcome, index_of_outcome houtcome, (allValued_cons houtcome).1 hvalued⟩

/-- A study whose arguments have values raises no fault about a name or an index of its own. -/
theorem ordinary_of_study {study : Study} {source length : Node}
    (hvalued : AllValued series (Builtin.evaluated (.study study) [source, length]) start)
    (hfault : (Call.apply series callee (.study study)
      (evaluateArguments series [source, length])).HasFault start fault) :
    Ordinary series start.index fault := by
  rcases hasFault_settle_bind_iff.1 hfault with hsource | ⟨field, hfield, hlength⟩
  · exact .of_kind (kind_of_sourceField hsource) (by decide)
  · cases source with
    | price =>
      obtain ⟨value, later, houtcome, hindex, -⟩ := AllValued.exists_outcome hvalued
      rw [← hindex]
      exact ordinary_of_period ((hasFault_bind_of_ok houtcome).1 hlength)
    | _ => cases hfield

theorem ordinary_of_averageRange {source length : Node}
    (hvalued : AllValued series [source, length] start)
    (hfault : (Call.apply series callee .averageRange
      (evaluateArguments series [source, length])).HasFault start fault) :
    Ordinary series start.index fault := by
  obtain ⟨_, middle, hfirst, hmiddle, hvalued⟩ := hvalued.exists_outcome
  obtain ⟨_, later, hsecond, hlater, -⟩ := hvalued.exists_outcome
  rw [← hmiddle, ← hlater]
  exact ordinary_of_period
    ((hasFault_bind_of_ok hsecond).1 ((hasFault_bind_of_ok hfirst).1 hfault))

theorem ordinary_of_pairing {pairing : Pairing} {first second : Node}
    (hvalued : AllValued series [first, second] start)
    (hfault : (Call.apply series callee (.pairing pairing)
      (evaluateArguments series [first, second])).HasFault start fault) :
    Ordinary series start.index fault := by
  obtain ⟨_, middle, hfirst, -, hvalued⟩ := hvalued.exists_outcome
  obtain ⟨_, later, hsecond, -, -⟩ := hvalued.exists_outcome
  have hpair := (hasFault_bind_of_ok hsecond).1 ((hasFault_bind_of_ok hfirst).1 hfault)
  rw [HasFault, outcome_settle] at hpair
  exact .of_kind (kind_of_pair hpair) (by decide)

theorem ordinary_of_abs {argument : Node} (hvalued : AllValued series [argument] start)
    (hfault : (Call.apply series callee .abs
      (evaluateArguments series [argument])).HasFault start fault) :
    Ordinary series start.index fault := by
  obtain ⟨_, later, houtcome, -, -⟩ := hvalued.exists_outcome
  have hmagnitude := (hasFault_bind_of_ok houtcome).1 hfault
  rw [HasFault, outcome_settle] at hmagnitude
  exact .of_kind (kind_of_magnitude hmagnitude) (by decide)

/-- A wrong number of arguments is a fault of its own kind. -/
theorem ordinary_of_wrongArity {builtin : Builtin} {arguments : List Node}
    (hfault : (throw (.wrongArity callee builtin (evaluateArguments series arguments).length) :
      Evaluation Value).HasFault start fault) :
    Ordinary series start.index fault := by
  have hkind : fault.kind = .wrongArity := by
    rw [← Except.error.inj hfault]
    rfl
  exact .of_kind hkind (by decide)

/-- A call of a function that exists. -/
theorem ordinary_of_apply {builtin : Builtin} {arguments : List Node}
    (hvalued : AllValued series (builtin.evaluated arguments) start)
    (hfault : (Call.apply series callee builtin (evaluateArguments series arguments)).HasFault start
      fault) : Ordinary series start.index fault := by
  match arguments with
  | [] => cases builtin <;> exact ordinary_of_wrongArity hfault
  | [argument] =>
    cases builtin with
    | abs => exact ordinary_of_abs hvalued hfault
    | study | averageRange | pairing => exact ordinary_of_wrongArity hfault
  | [first, second] =>
    cases builtin with
    | study => exact ordinary_of_study hvalued hfault
    | averageRange => exact ordinary_of_averageRange hvalued hfault
    | pairing => exact ordinary_of_pairing hvalued hfault
    | abs => exact ordinary_of_wrongArity hfault
  | first :: second :: third :: rest => cases builtin <;> exact ordinary_of_wrongArity hfault

/-- An offset that leads nowhere: it is no natural number, or goes back further than the candles do.
    -/
def Strays (offset : Float) (index : Nat) : Prop :=
  ¬ ∃ count : Nat, Represents offset count ∧ count ≤ index

/-- An offset leads nowhere if it is not read, or is read as more than the index. -/
theorem strays_of_historyOffset {x : Float} {place : Nat}
    (hread : ∀ count, historyOffset (.number x) = .ok count → place < count) : Strays x place := by
  rintro ⟨count, hrepresents, hinside⟩
  have hbeyond := hread _ (historyOffset_of_represents hrepresents)
  omega

/-- A number that is no offset makes an invalid index. -/
theorem kind_of_historyOffset {x : Float} (hfault : historyOffset (.number x) = .error fault) :
    fault.kind = .invalidIndex := by
  rw [historyOffset] at hfault
  split at hfault <;> cases hfault
  rfl

/-- The access to history has a fault about the index if its offset leads nowhere. -/
theorem strays_or_ordinary_of_past {object offset : Node} {value : Value} {later : Moment}
    (houtcome : (evaluate series offset).outcome start = (.ok value, later))
    (hobject : ∀ count, historyOffset value = .ok count → count ≤ later.index →
      ∃ value, (evaluate series object).HasValue { later with index := later.index - count } value)
    (hfault : (evaluate series (.past object offset)).HasFault start fault) :
    (∃ x, value = .number x ∧ Strays x later.index ∧ fault.kind = .invalidIndex) ∨
      Ordinary series start.index fault := by
  have hsettled := (hasFault_bind_of_ok houtcome).1 hfault
  rcases hasFault_settle_bind_iff.1 hsettled with hrefused | ⟨count, hcount, hrest⟩
  · cases value with
    | number x =>
      refine .inl ⟨x, rfl, strays_of_historyOffset fun count hcount => ?_,
        kind_of_historyOffset hrefused⟩
      rw [hrefused] at hcount
      cases hcount
    | _ =>
      have hkind : fault.kind = .typeMismatch := by
        cases hrefused
        rfl
      exact .inr (.of_kind hkind (by decide))
  · have hlook : index.outcome later = (.ok later.index, later) := rfl
    have hguarded := (hasFault_bind_of_ok hlook).1 hrest
    by_cases hbeyond : later.index < count
    · rw [if_pos hbeyond] at hguarded
      have hkind : fault.kind = .invalidIndex := by
        rw [← Except.error.inj hguarded]
        rfl
      cases value with
      | number x =>
        refine .inl ⟨x, rfl, strays_of_historyOffset fun count' hcount' => ?_, hkind⟩
        cases hcount.symm.trans hcount'
        exact hbeyond
      | _ => cases hcount
    · rw [if_neg hbeyond, HasFault, outcome_atIndex] at hguarded
      obtain ⟨value, hvalue⟩ := hobject count hcount (by omega)
      exact absurd hguarded hvalue.not_hasFault

namespace Raises

variable {part child : Node} {moment : Moment}

/-- A fault comes behind the value of the tree that the part begins with. -/
theorem behind {next : Value → Evaluation Value} (hraises : Raises series part start fault)
    (hpart : evaluate series part = evaluate series child >>= next)
    (henters : Enters series part start child start) :
    ∃ value later, (evaluate series child).outcome start = (.ok value, later) ∧
      (next value).HasFault later fault := by
  obtain ⟨value, hvalue⟩ := hraises.hasValue child start henters
  obtain ⟨later, houtcome⟩ := hvalue.exists_outcome
  have hfault := hraises.hasFault
  rw [hpart, hasFault_bind_of_ok houtcome] at hfault
  exact ⟨value, later, houtcome, hfault⟩

/-- The parts that are entered have values where a tree raises a fault itself. -/
theorem not_hasFault (hraises : Raises series part start fault)
    (henters : Enters series part start child moment) :
    ¬ (evaluate series child).HasFault moment fault := by
  obtain ⟨value, hvalue⟩ := hraises.hasValue child moment henters
  exact hvalue.not_hasFault

/-- A variable raises only that it is not defined. -/
theorem ordinary_of_name {word : String} (hraises : Raises series (.name word) start fault) :
    Ordinary series start.index fault := by
  have hfault := hraises.hasFault
  rw [evaluate, HasFault, outcome_lookup] at hfault
  cases hbound : start.bindings.get? word with
  | none =>
    rw [hbound] at hfault
    cases hfault
    have hkind : (EvalFault.undefinedVariable word).kind = .undefinedVariable := rfl
    exact .of_kind hkind (by decide)
  | some value =>
    rw [hbound] at hfault
    cases hfault

/-- An operation on values raises only a wrong type. -/
theorem ordinary_of_binary {operator : BinaryOperator} {left right : Node}
    (hraises : Raises series (.binary operator left right) start fault) :
    Ordinary series start.index fault := by
  have hvalued : AllValued series [left, right] start :=
    fun operand moment hturn => hraises.hasValue operand moment (.operands hturn)
  obtain ⟨_, middle, hleft, -, hvalued⟩ := hvalued.exists_outcome
  obtain ⟨_, later, hright, -, -⟩ := hvalued.exists_outcome
  have hsettled :=
    (hasFault_bind_of_ok hright).1 ((hasFault_bind_of_ok hleft).1 hraises.hasFault)
  rw [HasFault, outcome_settle] at hsettled
  exact .of_kind (kind_of_binary hsettled) (by decide)

theorem ordinary_of_unary {operator : UnaryOperator} {operand : Node}
    (hraises : Raises series (.unary operator operand) start fault) :
    Ordinary series start.index fault := by
  obtain ⟨_, _, -, hsettled⟩ := hraises.behind rfl .operand
  rw [HasFault, outcome_settle] at hsettled
  exact .of_kind (kind_of_unary hsettled) (by decide)

/-- The faults of a conditional are those of its parts. -/
theorem not_ifThen {condition consequent : Node} :
    ¬ Raises series (.ifThen condition consequent) start fault := by
  intro hraises
  obtain ⟨_, _, hvalue, hbranch⟩ := hraises.behind rfl .condition
  split at hbranch
  · rename_i htrue
    exact hraises.not_hasFault (.consequent hvalue htrue) hbranch
  · cases hbranch

/-- A conditional raises no fault of its own, only those of its parts. -/
theorem not_ifThenElse {condition consequent alternative : Node} :
    ¬ Raises series (.ifThenElse condition consequent alternative) start fault := by
  intro hraises
  obtain ⟨_, _, hvalue, hbranch⟩ := hraises.behind rfl .conditionOfElse
  split at hbranch
  · rename_i htrue
    exact hraises.not_hasFault (.consequentOfElse hvalue htrue) hbranch
  · rename_i hfalse
    exact hraises.not_hasFault (.alternative hvalue (by simpa using hfalse)) hbranch

theorem not_assign {target : String} {value : Node} :
    ¬ Raises series (.assign target value) start fault := by
  intro hraises
  obtain ⟨_, _, -, hbound⟩ := hraises.behind rfl .value
  cases hbound

theorem not_buy {condition : Node} : ¬ Raises series (.buy condition) start fault := by
  intro hraises
  obtain ⟨_, _, -, hvote⟩ := hraises.behind rfl .buy
  cases hvote

theorem not_sell {condition : Node} : ¬ Raises series (.sell condition) start fault := by
  intro hraises
  obtain ⟨_, _, -, hvote⟩ := hraises.behind rfl .sell
  cases hvote

theorem not_strategy {title : String} {rules : List Node} :
    ¬ Raises series (.strategy title rules) start fault := by
  intro hraises
  have hvalued : AllValued series rules start :=
    fun rule moment hturn => hraises.hasValue rule moment (.rule hturn)
  obtain ⟨value, hvalue⟩ := exists_hasValue_strategy hvalued
  exact hvalue.not_hasFault hraises.hasFault

/-- What a part of a tree can be faulty about by itself. -/
theorem cause (hraises : Raises series part start fault) :
    (∃ callee arguments, part = .call callee arguments ∧ Builtin.ofName? callee = none ∧
      fault = .unknownFunction callee) ∨
    (∃ object offset x, part = .past object offset ∧
      (evaluate series offset).HasValue start (.number x) ∧ Strays x start.index ∧
      fault.kind = .invalidIndex) ∨
    Ordinary series start.index fault := by
  cases part with
  | number | text | truth => cases hraises.hasFault
  | name => exact .inr (.inr hraises.ordinary_of_name)
  | price =>
    have hfault := hraises.hasFault
    rw [evaluate] at hfault
    exact .inr (.inr (ordinary_of_candle (hasFault_map_iff.1 hfault)))
  | binary => exact .inr (.inr hraises.ordinary_of_binary)
  | unary => exact .inr (.inr hraises.ordinary_of_unary)
  | call callee arguments =>
    have hfault := hraises.hasFault
    rw [evaluate, call] at hfault
    cases hname : Builtin.ofName? callee with
    | none =>
      rw [hname] at hfault
      exact .inl ⟨callee, arguments, rfl, hname, (Except.error.inj hfault).symm⟩
    | some builtin =>
      rw [hname] at hfault
      have hvalued : AllValued series (builtin.evaluated arguments) start :=
        fun argument moment hturn => hraises.hasValue argument moment (.argument hname hturn)
      exact .inr (.inr (ordinary_of_apply hvalued hfault))
  | ifThen => exact absurd hraises not_ifThen
  | ifThenElse => exact absurd hraises not_ifThenElse
  | assign => exact absurd hraises not_assign
  | buy => exact absurd hraises not_buy
  | sell => exact absurd hraises not_sell
  | strategy => exact absurd hraises not_strategy
  | past object offset =>
    obtain ⟨value, later, hvalue, -⟩ := hraises.behind rfl .offset
    rcases strays_or_ordinary_of_past hvalue
      (fun count hcount hinside => hraises.hasValue object _ (.object hvalue hcount hinside))
      hraises.hasFault with ⟨x, rfl, hstrays, hkind⟩ | hordinary
    · have hoffset : (evaluate series offset).HasValue start (.number x) := congrArg Prod.fst hvalue
      rw [index_of_outcome hvalue] at hstrays
      exact .inr (.inl ⟨object, offset, x, rfl, hoffset, hstrays, hkind⟩)
    · exact .inr (.inr hordinary)

end Raises

end Valued

/-- A call by a name that is not recognized looks at none of its arguments. -/
theorem not_enters_of_unrecognized {series : Series} {callee : String} {arguments : List Node}
    {start moment : Moment} {child : Node} (hname : Builtin.recognize? callee = none) :
    ¬ Enters series (.call callee arguments) start child moment := by
  intro henters
  rw [Builtin.recognize?_eq_ofName?] at hname
  cases henters with
  | argument hfound =>
    rw [hname] at hfound
    cases hfound

/-- An evaluation does nothing that cannot be done. On a machine that looks up each place, computes
    indices in words and stops in the branches for functions that are of no kind, every tree has the
    same outcome at every moment, and no stop. The names that are recognized are the bare names and
    the qualified ones; a call by another one fails with the fault of an unknown function, whatever
    its arguments are, and enters none of them. Every fault is raised by a part that was reached:
    that of an unknown function by such a call, and, if the index is inside the series, that of an
    invalid index by an access to history with an offset that is no natural number or is greater
    than the index there. -/
theorem evaluation_without_stops {series : Series} (hlimit : series.length < Indicator.wordLimit) :
    (∀ node start,
      Checked.evaluate series node start = .ok ((evaluate series node).outcome start)) ∧
    (∀ word builtin, Builtin.recognize? word = some builtin ↔
      word = builtin.name ∨ word = builtin.area ++ "." ++ builtin.name) ∧
    (∀ callee, Builtin.recognize? callee = none →
      (∀ arguments : List Argument,
        call series callee arguments = throw (.unknownFunction callee)) ∧
      ∀ arguments start,
        (evaluate series (.call callee arguments)).outcome start =
          (.error (.unknownFunction callee), start) ∧
        ∀ child moment, ¬ Enters series (.call callee arguments) start child moment) ∧
    ∀ node start fault,
      (((evaluate series node).outcome start).1 = .error fault →
        ∃ part entered, Reaches series node start part entered ∧
          Raises series part entered fault) ∧
      ∀ part entered, Reaches series node start part entered → Raises series part entered fault →
        (fault.kind = .unknownFunction → ∃ callee arguments, part = .call callee arguments ∧
          Builtin.recognize? callee = none ∧ fault = .unknownFunction callee) ∧
        (start.index < series.length → fault.kind = .invalidIndex →
          ∃ object offset x, part = .past object offset ∧
            (evaluate series offset).HasValue entered (.number x) ∧ Strays x entered.index) := by
  refine ⟨fun node start => ?_, fun _ _ => Builtin.recognize?_eq_some_iff, fun callee hname => ?_,
    fun node start fault => ⟨exists_raises, fun part entered hreaches hraises => ?_⟩⟩
  · rw [Checked.evaluate_eq hlimit]
    rfl
  · have hcall : ∀ arguments : List Argument,
        call series callee arguments = throw (.unknownFunction callee) := by
      intro arguments
      rw [call, ← Builtin.recognize?_eq_ofName?, hname]
    refine ⟨hcall, fun arguments start => ⟨?_, fun _ _ => not_enters_of_unrecognized hname⟩⟩
    rw [evaluate, hcall]
    rfl
  · rcases hraises.cause with ⟨callee, arguments, rfl, hname, rfl⟩ |
      ⟨object, offset, x, rfl, hoffset, hstrays, hkind⟩ | hordinary
    · rw [← Builtin.recognize?_eq_ofName?] at hname
      have hkind : (EvalFault.unknownFunction callee).kind = .unknownFunction := rfl
      exact ⟨fun _ => ⟨callee, arguments, rfl, hname, rfl⟩,
        fun _ hindex => absurd (hkind.symm.trans hindex) (by decide)⟩
    · exact ⟨fun hname => absurd (hkind.symm.trans hname) (by decide),
        fun _ _ => ⟨object, offset, x, rfl, hoffset, hstrays⟩⟩
    · exact ⟨fun hkind => absurd hkind hordinary.name, fun hinside hkind =>
        absurd hkind (hordinary.index (Nat.lt_of_le_of_lt hreaches.index_le hinside))⟩

/-- An access to history within a sum, at the second of two candles, goes back by five. The fault of
    the sum is that of the access. With the sum as argument of a call by a name of the wrong
    namespace, there is no fault but that of the name. -/
theorem evaluation_without_stops_two_candles :
    let candle (time : Int) (price : Float) : Candle := ⟨time, price, price, price, price, 1⟩
    let series : Series := ⟨[candle 1 10, candle 2 12], by decide⟩
    let start : Moment := ⟨∅, 1⟩
    let node : Node := .binary .add (.price .closing) (.past (.price .closing) (.number 5))
    series.length < Indicator.wordLimit ∧ start.index < series.length ∧
      Checked.evaluate series node start = .ok (.error (.beforeFirstCandle 5 1), start) ∧
      (∃ part entered object offset x, Reaches series node start part entered ∧
        part = .past object offset ∧ (evaluate series offset).HasValue entered (.number x) ∧
        Strays x entered.index) ∧
      Builtin.recognize? "ta.max" = none ∧
      (evaluate series (.call "ta.max" [node])).outcome start =
        (.error (.unknownFunction "ta.max"), start) := by
  intro candle series start node
  have hlimit : series.length < Indicator.wordLimit := by decide
  have hindex : start.index < series.length := by decide
  have hname : Builtin.recognize? "ta.max" = none := by decide
  have houtcome :
      (evaluate series node).outcome start = (.error (.beforeFirstCandle 5 1), start) := rfl
  obtain ⟨hchecked, -, hcalls, hfaults⟩ := evaluation_without_stops hlimit
  obtain ⟨hraised, hcause⟩ := hfaults node start (.beforeFirstCandle 5 1)
  obtain ⟨part, entered, hreaches, hraises⟩ := hraised (congrArg Prod.fst houtcome)
  obtain ⟨object, offset, x, hpast⟩ := (hcause part entered hreaches hraises).2 hindex rfl
  exact ⟨hlimit, hindex, (hchecked node start).trans (congrArg Except.ok houtcome),
    ⟨part, entered, object, offset, x, hreaches, hpast⟩, hname,
    ((hcalls "ta.max" hname).2 [node] start).1⟩

end Candlewick
