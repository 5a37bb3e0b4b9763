import Candlewick.Proofs.Grammar.Consequents

namespace Candlewick.Grammar

namespace Statement

/-- How many warnings there are about a statement up to the end of what follows the `then` of the
    conditional that it is. -/
def headWarned : Statement → Nat
  | expression phrase => phrase.headWarned
  | _ => 0

/-- Up to its consequent there are no more warnings about a statement than in all. -/
theorem headWarned_le_warned (statement : Statement) : statement.headWarned ≤ statement.warned := by
  cases statement with
  | expression phrase =>
    rw [warned_expression]
    exact phrase.headWarned_le_warned
  | strategy | rule => exact Nat.zero_le _

/-- How many warnings about the statement behind it the reading of a statement meets. -/
def readAhead (statement next : Statement) : Nat :=
  if statement.isStrategy then next.headWarned else 0

end Statement

namespace Block

/-- How many of the warnings about a block are met twice. -/
def reread : Block → Nat
  | last _ _ => 0
  | more statement _ rest => statement.readAhead rest.head + rest.reread

/-- The announcements for the warnings about a block: behind those about a strategy, some of those
    about the next statement come once more than there are warnings. -/
def announced : Block → List Warning → List Warning
  | last _ _, warnings => warnings
  | more statement _ rest, warnings =>
    let behind := warnings.drop statement.warned
    warnings.take statement.warned ++
      (behind.take (statement.readAhead rest.head) ++ rest.announced behind)

/-- The warnings about the first statement are among those about the block. -/
theorem warned_head_le_warned (block : Block) : block.head.warned ≤ block.warned := by
  cases block with
  | last statement behind => exact Nat.le_of_eq (warned_last statement behind).symm
  | more statement further rest =>
    rw [warned_more]
    exact Nat.le_add_right _ _

/-- There is one announcement for each warning, and one more for each that is met twice. -/
theorem length_announced {block : Block} {warnings : List Warning}
    (hlength : warnings.length = block.warned) :
    (block.announced warnings).length = warnings.length + block.reread := by
  induction block generalizing warnings with
  | last => rfl
  | more statement further rest ih =>
    rw [warned_more] at hlength
    have hbehind : (warnings.drop statement.warned).length = rest.warned := by
      rw [List.length_drop]
      omega
    have hahead : statement.readAhead rest.head ≤ rest.warned := by
      have hhead := Nat.le_trans rest.head.headWarned_le_warned rest.warned_head_le_warned
      unfold Statement.readAhead
      split
      · exact hhead
      · exact Nat.zero_le _
    rw [announced, List.length_append, List.length_append, ih hbehind, List.length_take,
      List.length_take, hbehind, reread]
    omega

/-- Each warning is announced, in order. -/
theorem sublist_announced (block : Block) (warnings : List Warning) :
    warnings.Sublist (block.announced warnings) := by
  induction block generalizing warnings with
  | last => exact List.Sublist.refl _
  | more statement further rest ih =>
    have hrest := (ih (warnings.drop statement.warned)).trans (List.sublist_append_right
      ((warnings.drop statement.warned).take (statement.readAhead rest.head)) _)
    have hsublist := (List.Sublist.refl (warnings.take statement.warned)).append hrest
    rwa [List.take_append_drop] at hsublist

/-- Only warnings are announced. -/
theorem mem_of_mem_announced {block : Block} {warnings : List Warning} {warning : Warning}
    (hmem : warning ∈ block.announced warnings) : warning ∈ warnings := by
  induction block generalizing warnings with
  | last => exact hmem
  | more statement further rest ih =>
    rw [announced, List.mem_append, List.mem_append] at hmem
    rcases hmem with hmem | hmem | hmem
    · exact List.mem_of_mem_take hmem
    · exact List.mem_of_mem_drop (List.mem_of_mem_take hmem)
    · exact List.mem_of_mem_drop (ih hmem)

/-- The announcements are the warnings if none of these is met twice. -/
theorem announced_eq_self_iff {block : Block} {warnings : List Warning}
    (hlength : warnings.length = block.warned) :
    block.announced warnings = warnings ↔ block.reread = 0 := by
  constructor
  · intro heq
    have hannounced := length_announced hlength
    rw [heq] at hannounced
    omega
  · intro hnone
    induction block generalizing warnings with
    | last => rfl
    | more statement further rest ih =>
      rw [warned_more] at hlength
      have hbehind : (warnings.drop statement.warned).length = rest.warned := by
        rw [List.length_drop]
        omega
      rw [reread, Nat.add_eq_zero_iff] at hnone
      rw [announced, ih hbehind hnone.2, hnone.1, List.take_zero, List.nil_append,
        List.take_append_drop]

end Block

end Candlewick.Grammar
