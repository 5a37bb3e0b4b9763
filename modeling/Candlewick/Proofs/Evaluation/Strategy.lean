import Candlewick.Proofs.Evaluation.Turns

namespace Candlewick

open Evaluation

variable {series : Series} {rules : List Node} {start : Moment}

/-- One of some rules that are evaluated one after the other votes for buying (`true`) or for
    selling. -/
def Votes (series : Series) (rules : List Node) (start : Moment) (buying : Bool) : Prop :=
  ∃ rule moment, Turn series rules start rule moment ∧
    (evaluate series rule).HasValue moment (.bool buying)

/-- Each of some rules has a value when its turn comes. -/
def AllValued (series : Series) (rules : List Node) (start : Moment) : Prop :=
  ∀ rule moment, Turn series rules start rule moment →
    ∃ value, (evaluate series rule).HasValue moment value

section Cons

variable {first : Node} {rest : List Node} {middle : Moment} {value : Value}
  (hfirst : (evaluate series first).outcome start = (.ok value, middle))
include hfirst

theorem votes_cons (buying : Bool) :
    Votes series (first :: rest) start buying ↔
      value = .bool buying ∨ Votes series rest middle buying := by
  have hvalue : (evaluate series first).HasValue start value := congrArg Prod.fst hfirst
  constructor
  · rintro ⟨rule, moment, hturn, hvote⟩
    rcases (turn_cons_of_ok hfirst).1 hturn with ⟨rfl, rfl⟩ | hrest
    · exact .inl (hvalue.unique hvote)
    · exact .inr ⟨rule, moment, hrest, hvote⟩
  · rintro (rfl | ⟨rule, moment, hrest, hvote⟩)
    · exact ⟨first, start, .head, hvalue⟩
    · exact ⟨rule, moment, .tail hfirst hrest, hvote⟩

theorem allValued_cons :
    AllValued series (first :: rest) start ↔ AllValued series rest middle := by
  constructor
  · exact fun hvalued rule moment hrest => hvalued rule moment (.tail hfirst hrest)
  · intro hvalued rule moment hturn
    rcases (turn_cons_of_ok hfirst).1 hturn with ⟨rfl, rfl⟩ | hrest
    · exact ⟨value, congrArg Prod.fst hfirst⟩
    · exact hvalued rule moment hrest

/-- The value of a rule is kept as a vote, and the others go on from there. -/
theorem outcome_votes_cons (buy sell : Bool) :
    (votes buy sell (evaluateEach series (first :: rest))).outcome start =
      (votes (buy || decide (value = .bool true)) (sell || decide (value = .bool false))
        (evaluateEach series rest)).outcome middle := by
  rw [evaluateEach, votes, outcome_bind, hfirst]
  dsimp only
  split <;> simp_all

end Cons

/-- The votes are counted if all rules have a value, and each flag tells whether there is a vote of
    its kind. -/
theorem hasValue_votes_iff {buy sell buying selling : Bool} :
    (votes buy sell (evaluateEach series rules)).HasValue start (buying, selling) ↔
      AllValued series rules start ∧
        (buying = true ↔ buy = true ∨ Votes series rules start true) ∧
        (selling = true ↔ sell = true ∨ Votes series rules start false) := by
  induction rules generalizing start buy sell with
  | nil =>
    have hall : AllValued series [] start := fun _ _ hturn => absurd hturn not_turn_nil
    have hnone : ∀ answer, ¬ Votes series [] start answer :=
      fun _ ⟨_, _, hturn, _⟩ => not_turn_nil hturn
    have hpure : (votes buy sell (evaluateEach series [])).HasValue start (buying, selling) ↔
        (buy, sell) = (buying, selling) := Except.ok.injEq _ _ ▸ Iff.rfl
    simp [hpure, hall, hnone, eq_comm]
  | cons first rest ih =>
    rcases hfirst : (evaluate series first).outcome start with ⟨_ | value, middle⟩
    · -- nothing is counted if the first rule has a fault
      have hfault : ¬ AllValued series (first :: rest) start := by
        intro hvalued
        obtain ⟨value, hvalue⟩ := hvalued first start .head
        rw [HasValue, hfirst] at hvalue
        cases hvalue
      rw [HasValue, evaluateEach, votes, outcome_bind, hfirst]
      simp [hfault]
    · rw [HasValue, outcome_votes_cons hfirst, ← HasValue, ih, allValued_cons hfirst,
        votes_cons hfirst, votes_cons hfirst]
      simp [or_assoc]

/-- A strategy has a value if all its rules have one, and then it is decided by the votes. -/
theorem hasValue_strategy_iff {title : String} {value : Value} :
    (evaluate series (.strategy title rules)).HasValue start value ↔
      AllValued series rules start ∧ ∃ buying selling, decision (buying, selling) = value ∧
        (buying = true ↔ Votes series rules start true) ∧
        (selling = true ↔ Votes series rules start false) := by
  have hstrategy : (evaluate series (.strategy title rules)).HasValue start value ↔
      ∃ counted, (votes false false (evaluateEach series rules)).HasValue start counted ∧
        decision counted = value := by
    rw [evaluate, HasValue, outcome_bind]
    unfold HasValue
    rcases (votes false false (evaluateEach series rules)).outcome start with ⟨_ | counted, later⟩
    · simp
    · have hdecided : (pure (decision counted) : Evaluation Value).outcome later =
          (.ok (decision counted), later) := rfl
      simp [hdecided]
  rw [hstrategy]
  constructor
  · rintro ⟨⟨buying, selling⟩, hcounted, hdecision⟩
    obtain ⟨hvalued, hbuying, hselling⟩ := hasValue_votes_iff.1 hcounted
    exact ⟨hvalued, buying, selling, hdecision, by simpa using hbuying, by simpa using hselling⟩
  · rintro ⟨hvalued, buying, selling, hdecision, hbuying, hselling⟩
    exact ⟨(buying, selling),
      hasValue_votes_iff.2 ⟨hvalued, by simpa using hbuying, by simpa using hselling⟩, hdecision⟩

/-- A strategy has a value if all of its rules have one. -/
theorem exists_hasValue_strategy {title : String} (hvalued : AllValued series rules start) :
    ∃ value, (evaluate series (.strategy title rules)).HasValue start value := by
  have hflag : ∀ answer, ∃ flag : Bool, flag = true ↔ Votes series rules start answer := by
    intro answer
    by_cases hvotes : Votes series rules start answer
    · exact ⟨true, by simp [hvotes]⟩
    · exact ⟨false, by simp [hvotes]⟩
  obtain ⟨buying, hbuying⟩ := hflag true
  obtain ⟨selling, hselling⟩ := hflag false
  exact ⟨_, hasValue_strategy_iff.2 ⟨hvalued, buying, selling, rfl, hbuying, hselling⟩⟩

section Unassigned

variable (hnone : ∀ rule ∈ rules, ∀ name, ¬ rule.Assigns name)
include hnone

/-- Where no rule assigns a variable, each of them can be evaluated at the start. -/
theorem allValued_iff_of_unassigned :
    AllValued series rules start ↔
      ∀ rule ∈ rules, ∃ value, (evaluate series rule).HasValue start value := by
  constructor
  · exact fun hvalued rule hmem => hvalued rule start (turn_of_mem hnone hvalued hmem)
  · intro hvalued rule moment hturn
    rw [hturn.moment_eq hnone]
    exact hvalued rule hturn.mem

/-- Where no rule assigns a variable, the votes are those of the rules at the start. -/
theorem votes_iff_of_unassigned (hvalued : AllValued series rules start) (buying : Bool) :
    Votes series rules start buying ↔
      ∃ rule ∈ rules, (evaluate series rule).HasValue start (.bool buying) := by
  constructor
  · rintro ⟨rule, moment, hturn, hvote⟩
    rw [hturn.moment_eq hnone] at hvote
    exact ⟨rule, hturn.mem, hvote⟩
  · rintro ⟨rule, hmem, hvote⟩
    exact ⟨rule, start, turn_of_mem hnone hvalued hmem, hvote⟩

/-- Rules that assign nothing may be put in another order. -/
theorem hasValue_strategy_of_perm {rules' : List Node} (hperm : rules.Perm rules') {title : String}
    {value : Value} (hvalue : (evaluate series (.strategy title rules)).HasValue start value) :
    (evaluate series (.strategy title rules')).HasValue start value := by
  have hnone' : ∀ rule ∈ rules', ∀ name, ¬ rule.Assigns name :=
    fun rule hmem => hnone rule (hperm.mem_iff.2 hmem)
  obtain ⟨hvalued, buying, selling, hdecision, hbuying, hselling⟩ := hasValue_strategy_iff.1 hvalue
  have hvalued' : AllValued series rules' start :=
    (allValued_iff_of_unassigned hnone').2 fun rule hmem =>
      (allValued_iff_of_unassigned hnone).1 hvalued rule (hperm.mem_iff.2 hmem)
  have hvotes (answer : Bool) :
      Votes series rules start answer ↔ Votes series rules' start answer := by
    rw [votes_iff_of_unassigned hnone hvalued, votes_iff_of_unassigned hnone' hvalued']
    simp only [hperm.mem_iff]
  exact hasValue_strategy_iff.2 ⟨hvalued', buying, selling, hdecision, hbuying.trans (hvotes true),
    hselling.trans (hvotes false)⟩

end Unassigned

/-- The condition of one of some trading rules of a kind holds when the turn of the rule comes. -/
def Fires (series : Series) (rules : List Node) (start : Moment) (kind : Node → Node) : Prop :=
  ∃ condition moment, Turn series rules start (kind condition) moment ∧
    ∃ value, (evaluate series condition).HasValue moment value ∧ value.isTrue = true

/-- The value of a trading rule is that of its vote if its condition holds. -/
theorem hasValue_rule_iff {condition : Node} {moment : Moment} {answer vote : Bool} :
    (do return if (← evaluate series condition).isTrue then .bool vote else .na :
      Evaluation Value).HasValue moment (.bool answer) ↔
      answer = vote ∧ ∃ value, (evaluate series condition).HasValue moment value ∧
        value.isTrue = true := by
  rw [HasValue, outcome_bind]
  unfold HasValue
  rcases (evaluate series condition).outcome moment with ⟨_ | value, later⟩
  · simp
  · have hpure :
        (pure (if value.isTrue then .bool vote else .na) : Evaluation Value).outcome later =
          (.ok (if value.isTrue then .bool vote else .na), later) := rfl
    dsimp only
    rw [hpure]
    cases htrue : value.isTrue <;> cases answer <;> cases vote <;> simp [htrue]

section Rules

variable (hrules : ∀ rule ∈ rules, ∃ condition, rule = .buy condition ∨ rule = .sell condition)
include hrules

/-- The votes are those of the trading rules whose conditions hold. -/
theorem votes_iff_fires (answer : Bool) :
    Votes series rules start answer ↔
      Fires series rules start (if answer then .buy else .sell) := by
  constructor
  · rintro ⟨rule, moment, hturn, hvote⟩
    obtain ⟨condition, rfl | rfl⟩ := hrules rule hturn.mem
    all_goals
      rw [evaluate] at hvote
      obtain ⟨rfl, hholds⟩ := hasValue_rule_iff.1 hvote
      exact ⟨condition, moment, hturn, hholds⟩
  · rintro ⟨condition, moment, hturn, hholds⟩
    refine ⟨_, moment, hturn, ?_⟩
    cases answer with
    | true | false =>
      simp only [if_true, Bool.false_eq_true, if_false, evaluate]
      exact hasValue_rule_iff.2 ⟨rfl, hholds⟩

/-- Trading rules decide if those that hold agree. -/
theorem hasValue_strategy_of_rules {title : String} {value : Value}
    (hvalue : (evaluate series (.strategy title rules)).HasValue start value) :
    let buys := Fires series rules start .buy
    let sells := Fires series rules start .sell
    (value = .bool true ↔ buys ∧ ¬ sells) ∧ (value = .bool false ↔ ¬ buys ∧ sells) ∧
      (value = .na ↔ (buys ↔ sells)) := by
  intro buys sells
  obtain ⟨_, buying, selling, rfl, hbuying, hselling⟩ := hasValue_strategy_iff.1 hvalue
  rw [votes_iff_fires hrules] at hbuying hselling
  change buying = true ↔ buys at hbuying
  change selling = true ↔ sells at hselling
  rw [← hbuying, ← hselling]
  cases buying <;> cases selling <;> decide

end Rules

/-- The order of the rules of a strategy is of no account where they assign nothing: each order has
    the value of every other one, or a fault if another one has a fault. The rules then all have
    their turn at the moment of the strategy, so that whether one of them holds is asked of that
    moment. If all rules are for buying or selling and there is a value, it is `true` if one for
    buying holds and none for selling does, `false` the other way round, and `na` otherwise. -/
theorem strategy_order_independent (series : Series) (title : String) (rules : List Node)
    (start : Moment) :
    ((∀ rule ∈ rules, ∀ name, ¬ rule.Assigns name) → ∀ rules' : List Node, rules.Perm rules' →
      (∀ value, (evaluate series (.strategy title rules)).HasValue start value →
        (evaluate series (.strategy title rules')).HasValue start value) ∧
      ((∃ fault, ((evaluate series (.strategy title rules)).outcome start).1 = .error fault) →
        ∃ fault, ((evaluate series (.strategy title rules')).outcome start).1 = .error fault)) ∧
    (∀ value, (evaluate series (.strategy title rules)).HasValue start value →
      ((∀ rule ∈ rules, ∀ name, ¬ rule.Assigns name) →
        ∀ rule moment, Turn series rules start rule moment ↔ rule ∈ rules ∧ moment = start) ∧
      ((∀ rule ∈ rules, ∃ condition, rule = .buy condition ∨ rule = .sell condition) →
        let buys := Fires series rules start .buy
        let sells := Fires series rules start .sell
        (value = .bool true ↔ buys ∧ ¬ sells) ∧ (value = .bool false ↔ ¬ buys ∧ sells) ∧
          (value = .na ↔ (buys ↔ sells)))) := by
  constructor
  · intro hnone rules' hperm
    have hnone' : ∀ rule ∈ rules', ∀ name, ¬ rule.Assigns name :=
      fun rule hmem => hnone rule (hperm.mem_iff.2 hmem)
    refine ⟨fun value => hasValue_strategy_of_perm hnone hperm, fun hfault => ?_⟩
    -- a value of the other order would be one of this order
    refine exists_fault_iff.2 fun ⟨value, hvalue⟩ => exists_fault_iff.1 hfault ⟨value, ?_⟩
    exact hasValue_strategy_of_perm hnone' hperm.symm hvalue
  · intro value hvalue
    refine ⟨fun hnone rule moment => ?_, fun hrules => hasValue_strategy_of_rules hrules hvalue⟩
    constructor
    · exact fun hturn => ⟨hturn.mem, hturn.moment_eq hnone⟩
    · rintro ⟨hmem, rfl⟩
      exact turn_of_mem hnone (hasValue_strategy_iff.1 hvalue).1 hmem

/-- A rule for buying and one for selling that ask for a variable each. Only that of the first one
    holds, so the strategy buys in either order. -/
theorem strategy_order_independent_two_variables :
    let start : Moment := ⟨.ofList [("rising", .bool true), ("falling", .number 0)], 0⟩
    let buying : Node := .buy (.name "rising")
    let selling : Node := .sell (.name "falling")
    (evaluate .empty (.strategy "s" [buying, selling])).HasValue start (.bool true) ∧
      (evaluate .empty (.strategy "s" [selling, buying])).HasValue start (.bool true) ∧
      Fires .empty [buying, selling] start .buy ∧ ¬ Fires .empty [buying, selling] start .sell := by
  intro start buying selling
  have hnone : ∀ rule ∈ [buying, selling], ∀ name, ¬ rule.Assigns name := by
    simp [buying, selling, Node.Assigns, Node.children, Node.within_iff _ (.buy _),
      Node.within_iff _ (.sell _), Node.within_iff _ (.name _)]
  have hrules : ∀ rule ∈ [buying, selling],
      ∃ condition, rule = .buy condition ∨ rule = .sell condition := by
    simp [buying, selling]
  have hvalue :
      (evaluate .empty (.strategy "s" [buying, selling])).HasValue start (.bool true) := by
    unfold HasValue
    rfl
  obtain ⟨horder, hdecided⟩ := strategy_order_independent .empty "s" [buying, selling] start
  have hother := (horder hnone [selling, buying] (.swap selling buying [])).1 (.bool true) hvalue
  have hfires := ((hdecided (.bool true) hvalue).2 hrules).1.1 rfl
  exact ⟨hvalue, hother, hfires⟩

end Candlewick
