import Candlewick.Proofs.Evaluation.Recomputation
import Candlewick.Proofs.Evaluation.Strategy

namespace Candlewick

open Evaluation

namespace Evaluation

variable {α β : Type} {evaluation : Evaluation β} {next : β → Evaluation α} {start later : Moment}
  {fault : EvalFault}

/-- An evaluation that starts in a moment ends in a fault. -/
def HasFault (evaluation : Evaluation α) (start : Moment) (fault : EvalFault) : Prop :=
  (evaluation.outcome start).1 = .error fault

/-- From one moment on an evaluation has one fault. -/
theorem HasFault.unique {fault' : EvalFault} (h : evaluation.HasFault start fault)
    (h' : evaluation.HasFault start fault') : fault = fault' :=
  Except.error.inj (h.symm.trans h')

/-- In sequence, a fault of the first evaluation is a fault of both. -/
theorem HasFault.bind (hfault : evaluation.HasFault start fault) :
    (evaluation >>= next).HasFault start fault := by
  unfold HasFault at hfault ⊢
  rw [outcome_bind]
  rcases houtcome : evaluation.outcome start with ⟨_ | value, later⟩
  · rw [houtcome] at hfault
    cases hfault
    rfl
  · rw [houtcome] at hfault
    cases hfault

/-- If the first evaluation has a value, a fault of both is one of the second. -/
theorem hasFault_bind_of_ok {value : β} (hvalue : evaluation.outcome start = (.ok value, later)) :
    (evaluation >>= next).HasFault start fault ↔ (next value).HasFault later fault := by
  unfold HasFault
  rw [outcome_bind, hvalue]

/-- What is done with the value of an evaluation has no fault. -/
theorem hasFault_map_iff {f : β → α} :
    (evaluation >>= fun value => pure (f value)).HasFault start fault ↔
      evaluation.HasFault start fault := by
  unfold HasFault
  rw [outcome_bind]
  rcases evaluation.outcome start with ⟨fault' | value, later⟩
  · simp
  · constructor <;> exact nofun

/-- What has a value has no fault. -/
theorem HasValue.not_hasFault {value : β} (hvalue : evaluation.HasValue start value) :
    ¬ evaluation.HasFault start fault := by
  intro hfault
  unfold HasValue at hvalue
  unfold HasFault at hfault
  rw [hvalue] at hfault
  cases hfault

theorem HasValue.exists_outcome {value : β} (hvalue : evaluation.HasValue start value) :
    ∃ later, evaluation.outcome start = (.ok value, later) :=
  ⟨(evaluation.outcome start).2, Prod.ext hvalue rfl⟩

/-- An outcome that is settled raises its own fault, or none. -/
theorem hasFault_settle_bind_iff {outcome : Except EvalFault β} :
    (settle outcome >>= next).HasFault start fault ↔ outcome = .error fault ∨
      ∃ value, outcome = .ok value ∧ (next value).HasFault start fault := by
  cases outcome with
  | error fault' => simp [HasFault, outcome_bind, outcome_settle]
  | ok value => simp [HasFault, outcome_bind, outcome_settle]

end Evaluation

/-- The arguments of a call that are evaluated: where a price field is asked for, it is not
    evaluated, and nothing is if there is no field or if the number of arguments is wrong. -/
def Builtin.evaluated : Builtin → List Node → List Node
  | .study _, [.price _, length] => [length]
  | .averageRange, [source, length] => [source, length]
  | .pairing _, [first, second] => [first, second]
  | .abs, [argument] => [argument]
  | _, _ => []

/-- The trees that the evaluation of a tree enters directly, and the moments at which it does. -/
inductive Enters (series : Series) : Node → Moment → Node → Moment → Prop where
  | operands {operator : BinaryOperator} {left right operand : Node} {start moment : Moment}
    (hturn : Turn series [left, right] start operand moment) :
    Enters series (.binary operator left right) start operand moment
  | operand {operator : UnaryOperator} {operand : Node} {start : Moment} :
    Enters series (.unary operator operand) start operand start
  | argument {callee : String} {builtin : Builtin} {arguments : List Node} {argument : Node}
    {start moment : Moment} (hname : Builtin.ofName? callee = some builtin)
    (hturn : Turn series (builtin.evaluated arguments) start argument moment) :
    Enters series (.call callee arguments) start argument moment
  | condition {condition consequent : Node} {start : Moment} :
    Enters series (.ifThen condition consequent) start condition start
  | consequent {condition consequent : Node} {start middle : Moment} {value : Value}
    (hcondition : (evaluate series condition).outcome start = (.ok value, middle))
    (htrue : value.isTrue = true) :
    Enters series (.ifThen condition consequent) start consequent middle
  | conditionOfElse {condition consequent alternative : Node} {start : Moment} :
    Enters series (.ifThenElse condition consequent alternative) start condition start
  | consequentOfElse {condition consequent alternative : Node} {start middle : Moment}
    {value : Value}
    (hcondition : (evaluate series condition).outcome start = (.ok value, middle))
    (htrue : value.isTrue = true) :
    Enters series (.ifThenElse condition consequent alternative) start consequent middle
  | alternative {condition consequent alternative : Node} {start middle : Moment} {value : Value}
    (hcondition : (evaluate series condition).outcome start = (.ok value, middle))
    (hfalse : value.isTrue = false) :
    Enters series (.ifThenElse condition consequent alternative) start alternative middle
  | value {target : String} {value : Node} {start : Moment} :
    Enters series (.assign target value) start value start
  | buy {condition : Node} {start : Moment} : Enters series (.buy condition) start condition start
  | sell {condition : Node} {start : Moment} : Enters series (.sell condition) start condition start
  | rule {title : String} {rules : List Node} {rule : Node} {start moment : Moment}
    (hturn : Turn series rules start rule moment) :
    Enters series (.strategy title rules) start rule moment
  | offset {object offset : Node} {start : Moment} :
    Enters series (.past object offset) start offset start
  | object {object offset : Node} {start middle : Moment} {value : Value} {count : Nat}
    (hvalue : (evaluate series offset).outcome start = (.ok value, middle))
    (hoffset : historyOffset value = .ok count) (hcount : count ≤ middle.index) :
    Enters series (.past object offset) start object { middle with index := middle.index - count }

/-- The parts of a tree that its evaluation comes to. -/
inductive Reaches (series : Series) : Node → Moment → Node → Moment → Prop where
  | here {node : Node} {start : Moment} : Reaches series node start node start
  | through {node child part : Node} {start moment entered : Moment}
    (henters : Enters series node start child moment)
    (hreaches : Reaches series child moment part entered) : Reaches series node start part entered

/-- A tree has a fault of its own: all trees that it enters have values. -/
structure Raises (series : Series) (node : Node) (start : Moment) (fault : EvalFault) : Prop where
  hasFault : (evaluate series node).HasFault start fault
  hasValue : ∀ child moment, Enters series node start child moment →
    ∃ value, (evaluate series child).HasValue moment value

variable {series : Series} {node child part : Node} {start moment entered : Moment}
  {fault : EvalFault}

/-- Arguments that are evaluated are arguments. -/
theorem Builtin.mem_of_mem_evaluated {builtin : Builtin} {arguments : List Node} {argument : Node}
    (hmem : argument ∈ builtin.evaluated arguments) : argument ∈ arguments := by
  unfold evaluated at hmem
  split at hmem
  · exact List.mem_cons_of_mem _ hmem
  · exact hmem
  · exact hmem
  · exact hmem
  · exact absurd hmem List.not_mem_nil

/-- Only trees right below the root are entered. -/
theorem Enters.mem_children (henters : Enters series node start child moment) :
    child ∈ node.children := by
  cases henters with
  | operands hturn => exact hturn.mem
  | argument _ hturn => exact Builtin.mem_of_mem_evaluated hturn.mem
  | rule hturn => exact hturn.mem
  | _ => simp [Node.children]

/-- An evaluation never goes forward. -/
theorem Enters.index_le (henters : Enters series node start child moment) :
    moment.index ≤ start.index := by
  cases henters with
  | operands hturn => exact Nat.le_of_eq hturn.index_eq
  | argument _ hturn => exact Nat.le_of_eq hturn.index_eq
  | rule hturn => exact Nat.le_of_eq hturn.index_eq
  | consequent hcondition => exact Nat.le_of_eq (index_of_outcome hcondition)
  | consequentOfElse hcondition => exact Nat.le_of_eq (index_of_outcome hcondition)
  | alternative hcondition => exact Nat.le_of_eq (index_of_outcome hcondition)
  | object hvalue =>
    rw [← index_of_outcome hvalue]
    exact Nat.sub_le _ _
  | _ => exact Nat.le_refl _

/-- An evaluation goes back in time and never forward. -/
theorem Reaches.index_le (hreaches : Reaches series node start part entered) :
    entered.index ≤ start.index := by
  induction hreaches with
  | here => exact Nat.le_refl _
  | through henters _ ih => exact Nat.le_trans ih henters.index_le

section Turns

variable {first second : Node}

/-- A fault of the only part is the fault of what it is a part of. -/
theorem hasFault_of_turn_one {next : Value → Evaluation Value}
    (hturn : Turn series [first] start node moment)
    (hfault : (evaluate series node).HasFault moment fault) :
    (evaluate series first >>= next).HasFault start fault := by
  cases hturn with
  | head => exact hfault.bind
  | tail _ hrest => exact absurd hrest not_turn_nil

/-- A fault of either of two parts, if it has its turn, is the fault of both. -/
theorem hasFault_of_turn_two {next : Value → Value → Evaluation Value}
    (hturn : Turn series [first, second] start node moment)
    (hfault : (evaluate series node).HasFault moment fault) :
    (evaluate series first >>= fun a => evaluate series second >>= next a).HasFault start
      fault := by
  cases hturn with
  | head => exact hfault.bind
  | tail hfirst hrest =>
    exact (hasFault_bind_of_ok hfirst).2 (hasFault_of_turn_one hrest hfault)

end Turns

/-- A fault of a rule that has its turn is the fault of the vote. -/
theorem hasFault_votes {rules : List Node} {buy sell : Bool}
    (hturn : Turn series rules start node moment)
    (hfault : (evaluate series node).HasFault moment fault) :
    (votes buy sell (evaluateEach series rules)).HasFault start fault := by
  induction hturn generalizing buy sell with
  | head => exact hfault.bind
  | tail hfirst _ ih =>
    rw [HasFault, outcome_votes_cons hfirst]
    exact ih hfault

/-- A fault of an argument that has its turn is the fault of the call. -/
theorem hasFault_call {callee : String} {builtin : Builtin} {arguments : List Node}
    (hname : Builtin.ofName? callee = some builtin)
    (hturn : Turn series (builtin.evaluated arguments) start node moment)
    (hfault : (evaluate series node).HasFault moment fault) :
    (evaluate series (.call callee arguments)).HasFault start fault := by
  rw [evaluate, call, hname]
  unfold Builtin.evaluated at hturn
  split at hturn
  · exact hasFault_of_turn_one hturn hfault
  · exact hasFault_of_turn_two hturn hfault
  · exact hasFault_of_turn_two hturn hfault
  · exact hasFault_of_turn_one hturn hfault
  · exact absurd hturn not_turn_nil

/-- A tree has the fault of a tree that it enters. -/
theorem Enters.hasFault (henters : Enters series node start child moment)
    (hfault : (evaluate series child).HasFault moment fault) :
    (evaluate series node).HasFault start fault := by
  cases henters with
  | operands hturn => exact hasFault_of_turn_two hturn hfault
  | argument hname hturn => exact hasFault_call hname hturn hfault
  | consequent hcondition htrue =>
    refine (hasFault_bind_of_ok hcondition).2 ?_
    rwa [if_pos htrue]
  | consequentOfElse hcondition htrue =>
    refine (hasFault_bind_of_ok hcondition).2 ?_
    rwa [if_pos htrue]
  | alternative hcondition hfalse =>
    refine (hasFault_bind_of_ok hcondition).2 ?_
    rwa [if_neg (by simp [hfalse])]
  | rule hturn => exact (hasFault_votes hturn hfault).bind
  | @object object offset _ middle value count hvalue hoffset hcount =>
    refine (hasFault_bind_of_ok hvalue).2 ?_
    have hsettled : (settle (historyOffset value)).outcome middle = (.ok count, middle) := by
      rw [outcome_settle, hoffset]
    have hlook : index.outcome middle = (.ok middle.index, middle) := rfl
    refine (hasFault_bind_of_ok hsettled).2 ((hasFault_bind_of_ok hlook).2 ?_)
    rw [if_neg (by omega), HasFault, outcome_atIndex]
    exact hfault
  | _ => exact hfault.bind

/-- Every fault is raised by a part that was reached. -/
theorem exists_raises (hfault : (evaluate series node).HasFault start fault) :
    ∃ part entered, Reaches series node start part entered ∧
      Raises series part entered fault := by
  induction node using Node.inductionOnChildren generalizing start with | step node ih => ?_
  by_cases hall : ∀ child moment, Enters series node start child moment →
      ∃ value, (evaluate series child).HasValue moment value
  · exact ⟨node, start, .here, hfault, hall⟩
  · simp only [Classical.not_forall] at hall
    obtain ⟨child, moment, henters, hnone⟩ := hall
    obtain ⟨fault', hfault'⟩ := exists_fault_iff.2 hnone
    -- the fault of the child is that of the tree
    obtain rfl : fault' = fault := (henters.hasFault hfault').unique hfault
    obtain ⟨part, entered, hreaches, hraises⟩ := ih child henters.mem_children hfault'
    exact ⟨part, entered, .through henters hreaches, hraises⟩

end Candlewick
