import Candlewick.Proofs.Evaluation.Alike
import Candlewick.Proofs.Node.Parts

namespace Candlewick

open Evaluation

variable {read assigned : String → Prop} {last : Nat} {first second : Series}

@[simp] theorem evaluateArguments_eq_map (series : Series) (nodes : List Node) :
    evaluateArguments series nodes = nodes.map fun node => ⟨node, evaluate series node⟩ := by
  induction nodes with
  | nil => rfl
  | cons node rest ih => rw [evaluateArguments, ih, List.map_cons]

namespace Evaluation.Alike

/-- The latest entry of an indicator needs the present index only for the wording of its fault. -/
theorem latestEntry (callee : String) (entries : List (Option Float)) :
    Alike read assigned last (Call.latestEntry callee entries)
      (Call.latestEntry callee entries) := by
  unfold Call.latestEntry
  split
  · split
    · exact bind_index fun _ _ => .throw _
    · exact .pure _
  · exact bind_index fun _ _ => .throw _

/-- A call sees its series through the history up to the present index and through its arguments. -/
theorem call (hsame : first.SameUpTo last second) (callee : String) (arguments : List Node)
    (halike : ∀ argument ∈ arguments,
      Alike read assigned last (evaluate first argument) (evaluate second argument)) :
    Alike read assigned last (call first callee (evaluateArguments first arguments))
      (Candlewick.call second callee (evaluateArguments second arguments)) := by
  simp only [evaluateArguments_eq_map]
  unfold Candlewick.call
  cases Builtin.ofName? callee with
  | none => exact .throw _
  | some builtin =>
    match arguments with
    | [] => cases builtin <;> exact .throw _
    | [argument] =>
      have hargument := halike argument (by simp)
      cases builtin with
      | abs => exact hargument.bind fun _ => .settle _
      | study | averageRange | pairing => exact .throw _
    | [source, length] =>
      have hsource := halike source (by simp)
      have hlength := halike length (by simp)
      cases builtin with
      | study study =>
        refine (settle _).bind fun field => hlength.bind fun value => ?_
        refine (settle _).bind fun period => ?_
        exact (history hsame).bind fun _ => latestEntry callee _
      | averageRange =>
        refine hsource.bind fun _ => hlength.bind fun value => (settle _).bind fun period => ?_
        exact (history hsame).bind fun _ => latestEntry callee _
      | pairing pairing => exact hsource.bind fun _ => hlength.bind fun _ => .settle _
      | abs => exact .throw _
    | _ :: _ :: _ :: rest =>
      simp only [Call.apply, List.map_cons, List.length_cons, List.length_map]
      cases builtin <;> exact .throw _

/-- Rules that are evaluated alike vote alike. -/
theorem votes {nodes : List Node}
    (halike : ∀ node ∈ nodes,
      Alike read assigned last (evaluate first node) (evaluate second node)) (buy sell : Bool) :
    Alike read assigned last (votes buy sell (evaluateEach first nodes))
      (Evaluation.votes buy sell (evaluateEach second nodes)) := by
  induction nodes generalizing buy sell with
  | nil => exact .pure _
  | cons node rest ih =>
    simp only [evaluateEach, Evaluation.votes]
    refine (halike node List.mem_cons_self).bind fun value => ?_
    have hrest := ih fun node hnode => halike node (List.mem_cons_of_mem _ hnode)
    split
    · exact hrest true sell
    · exact hrest buy true
    · exact hrest buy sell

end Evaluation.Alike

/-- A tree cannot tell two series apart that agree up to `last`, nor two tables of variables that
    agree on what it reads. History access only ever moves back, which keeps every nested evaluation
    within `last`. -/
theorem evaluate_alike (hsame : first.SameUpTo last second) (node : Node)
    (hread : ∀ name, node.Reads name → read name)
    (hassigned : ∀ name, node.Assigns name → assigned name) :
    Alike read assigned last (evaluate first node) (evaluate second node) := by
  induction node using Node.inductionOnChildren with | step node ih => ?_
  have halike : ∀ child ∈ node.children,
      Alike read assigned last (evaluate first child) (evaluate second child) := fun child hchild =>
    ih child hchild (fun name h => hread name (h.of_child hchild))
      fun name h => hassigned name (h.of_child hchild)
  simp only [Node.children] at halike
  cases node with
  | number | text | truth => exact .pure _
  | name word => exact .lookup (hread word (Node.reads_name word))
  | price field => exact (Alike.candle hsame).bind fun _ => .pure _
  | binary operator left right =>
    have hleft := halike left (by simp)
    have hright := halike right (by simp)
    exact hleft.bind fun _ => hright.bind fun _ => .settle _
  | unary operator operand =>
    have hoperand := halike operand (by simp)
    exact hoperand.bind fun _ => .settle _
  | call callee arguments => exact .call hsame callee arguments halike
  | ifThen condition consequent =>
    have hcondition := halike condition (by simp)
    have hconsequent := halike consequent (by simp)
    refine hcondition.bind fun value => ?_
    split
    · exact hconsequent
    · exact .pure _
  | ifThenElse condition consequent alternative =>
    have hcondition := halike condition (by simp)
    have hconsequent := halike consequent (by simp)
    have halternative := halike alternative (by simp)
    refine hcondition.bind fun value => ?_
    split
    · exact hconsequent
    · exact halternative
  | assign target value =>
    have hvalue := halike value (by simp)
    have htarget := hassigned target (Node.assigns_assign target value)
    exact hvalue.bind fun result => (Alike.assign result htarget).bind fun _ => .pure _
  | buy condition | sell condition =>
    have hcondition := halike condition (by simp)
    exact hcondition.bind fun _ => .pure _
  | strategy title rules => exact (Alike.votes halike false false).bind fun _ => .pure _
  | past object offset =>
    have hobject := halike object (by simp)
    have hoffset := halike offset (by simp)
    refine hoffset.bind fun value => (Alike.settle _).bind fun offset => ?_
    refine .bind_index fun index hindex => ?_
    split
    · exact .throw _
    · exact .atIndex (by omega) hobject

/-- Nor can statements evaluated in turn. -/
theorem evaluateStatements_alike (hsame : first.SameUpTo last second) (nodes : List Node)
    (value : Value) (hread : ∀ node ∈ nodes, ∀ name, node.Reads name → read name)
    (hassigned : ∀ node ∈ nodes, ∀ name, node.Assigns name → assigned name) :
    Alike read assigned last (evaluateStatements first value nodes)
      (evaluateStatements second value nodes) := by
  induction nodes generalizing value with
  | nil => exact .pure value
  | cons node rest ih =>
    obtain ⟨hnode, hrest⟩ := List.forall_mem_cons.1 hread
    obtain ⟨hnode', hrest'⟩ := List.forall_mem_cons.1 hassigned
    exact (evaluate_alike hsame node hnode hnode').bind fun value => ih value hrest hrest'

end Candlewick
