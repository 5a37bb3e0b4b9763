import Candlewick.Proofs.Grammar.Follow
import Candlewick.Proofs.Grammar.Readers

namespace Candlewick.Grammar

/-- The phrase that a terminal makes by itself. -/
def single? : Terminal → Option Phrase
  | ⟨.number value, _⟩ => some (.number value)
  | ⟨.text content, _⟩ => some (.text content)
  | ⟨.keyword .trueWord, _⟩ => some (.truth true)
  | ⟨.keyword .falseWord, _⟩ => some (.truth false)
  | ⟨.keyword (.price field), _⟩ => some (.price field)
  | ⟨.identifier word, _⟩ => some (.name word)
  | _ => none

namespace Derives

variable {phrase : Phrase}

/-- A phrase that no operator can divide is a single terminal, a call or an expression in
    brackets. -/
theorem primary_cases (hderives : Derives .primary phrase) :
    (∃ terminal, phrase.terminals = [terminal] ∧ single? terminal = some phrase) ∨
      (∃ callee arguments, phrase = .call callee arguments ∧
        ∀ argument ∈ arguments, Derives .expression argument) ∨
      ∃ inner, phrase = .group inner ∧ Derives .expression inner := by
  cases hderives with
  | number | text | price | name => exact .inl ⟨_, rfl, rfl⟩
  | truth value => cases value <;> exact .inl ⟨_, rfl, rfl⟩
  | call harguments => exact .inr (.inl ⟨_, _, rfl, harguments⟩)
  | group hinner => exact .inr (.inr ⟨_, rfl, hinner⟩)
  | joined hoperator hpower =>
    exact absurd (Category.isChain_of_operatorCategory hoperator hpower).2 (by decide)
  | tighter hprimary => exact absurd rfl hprimary

/-- A phrase of unary operators begins with one, or is none. -/
theorem unary_cases (hderives : Derives .unary phrase) :
    (∃ operator operand, phrase = .unary operator operand ∧ Derives .unary operand) ∨
      Derives .indexed phrase := by
  cases hderives with
  | unary hoperand => exact .inl ⟨_, _, rfl, hoperand⟩
  | joined hoperator hpower =>
    exact absurd (Category.isChain_of_operatorCategory hoperator hpower).2 (by decide)
  | tighter _ hphrase => exact .inr hphrase

/-- A power has an exponent, or is none. -/
theorem power_cases (hderives : Derives .power phrase) :
    (∃ base exponent, phrase = .binary .pow base exponent ∧ Derives .unary base ∧
      Derives .power exponent) ∨ Derives .unary phrase := by
  cases hderives with
  | power hbase hexponent => exact .inl ⟨_, _, rfl, hbase, hexponent⟩
  | joined _ hpower => exact absurd rfl hpower
  | tighter _ hphrase => exact .inr hphrase

/-- An expression is a conditional, an assignment or a chain of operators. -/
theorem expression_cases (hderives : Derives .expression phrase) :
    (∃ condition consequent, phrase = .ifThen condition consequent ∧
      Derives .expression condition ∧ Derives .expression consequent) ∨
    (∃ condition consequent alternative, phrase = .ifThenElse condition consequent alternative ∧
      Derives .expression condition ∧ Derives .expression consequent ∧
      Derives .expression alternative) ∨
    (∃ target value, phrase = .assign target value ∧ Derives .expression value) ∨
      Derives .or phrase := by
  cases hderives with
  | ifThen hcondition hconsequent => exact .inl ⟨_, _, rfl, hcondition, hconsequent⟩
  | ifThenElse hcondition hconsequent halternative =>
    exact .inr (.inl ⟨_, _, _, rfl, hcondition, hconsequent, halternative⟩)
  | assign hvalue => exact .inr (.inr (.inl ⟨_, _, rfl, hvalue⟩))
  | joined hoperator hpower =>
    exact absurd (Category.isChain_of_operatorCategory hoperator hpower).1 (by decide)
  | tighter _ hphrase => exact .inr (.inr (.inr hphrase))

end Derives

/-- What takes a phrase further to the right: an operator with its operand, or an index. -/
inductive Link where
  | join (operator : BinaryOperator) (operand : Phrase)
  | index (offset : Phrase)

namespace Link

/-- A phrase taken further. -/
def onto (left : Phrase) : Link → Phrase
  | join operator operand => .binary operator left operand
  | index offset => .past left offset

/-- The terminals that a link is written with. -/
def terminals : Link → List Terminal
  | join operator operand => binaryTerminal operator :: operand.terminals
  | index offset => .sign .leftBracket :: (offset.terminals ++ [.sign .rightBracket])

/-- The phrase in a link. -/
def part : Link → Phrase
  | join _ operand => operand
  | index offset => offset

/-- A link that takes phrases of a category further, with a part of which something holds. -/
def Of (holds : Category → Phrase → Prop) (category : Category) : Link → Prop
  | join operator operand =>
    operatorCategory operator = category ∧ category ≠ .power ∧ holds category.tighter operand
  | index offset => category = .indexed ∧ holds .expression offset

end Link

/-- A phrase of a category that groups to the left, as a tighter one with links behind it. -/
def Linked (holds : Category → Phrase → Prop) (category : Category) (phrase : Phrase) : Prop :=
  ∃ (head : Phrase) (links : List Link), phrase = links.foldl Link.onto head ∧
    holds category.tighter head ∧ ∀ link ∈ links, link.Of holds category

theorem Linked.onto {holds : Category → Phrase → Prop} {category : Category} {phrase : Phrase}
    {link : Link} (hlinked : Linked holds category phrase) (hlink : link.Of holds category) :
    Linked holds category (link.onto phrase) := by
  obtain ⟨head, links, rfl, hhead, hlinks⟩ := hlinked
  refine ⟨head, links ++ [link], by simp, hhead, ?_⟩
  intro other hother
  rcases List.mem_append.1 hother with hmem | hmem
  · exact hlinks other hmem
  · rw [List.mem_singleton.1 hmem]
    exact hlink

theorem linked_of_tighter {holds : Category → Phrase → Prop} {category : Category}
    {phrase : Phrase} (hholds : holds category.tighter phrase) : Linked holds category phrase :=
  ⟨phrase, [], rfl, hholds, by simp⟩

/-- The links of a phrase are written one behind the other. -/
theorem terminals_foldl_onto (head : Phrase) (links : List Link) :
    (links.foldl Link.onto head).terminals = head.terminals ++ links.flatMap Link.terminals := by
  induction links generalizing head with
  | nil => simp
  | cons link links ih =>
    have hlink : (link.onto head).terminals = head.terminals ++ link.terminals := by
      cases link <;> rfl
    rw [List.foldl_cons, ih, hlink, List.flatMap_cons, List.append_assoc]

/-- Links do not change where an `else` belongs, so each part can be looked at by itself. -/
theorem elseNearest_foldl_onto {head : Phrase} {links : List Link} :
    (links.foldl Link.onto head).ElseNearest ↔
      head.ElseNearest ∧ ∀ link ∈ links, link.part.ElseNearest := by
  induction links generalizing head with
  | nil => simp
  | cons link links ih =>
    have hlink : (link.onto head).ElseNearest ↔ head.ElseNearest ∧ link.part.ElseNearest := by
      cases link <;> exact Iff.rfl
    rw [List.foldl_cons, ih, hlink, List.forall_mem_cons, and_assoc]

/-- Chains and indexed phrases group to the left. -/
def Category.GroupsLeft (category : Category) : Prop :=
  category.IsChain ∨ category = .indexed

instance (category : Category) : Decidable category.GroupsLeft :=
  inferInstanceAs (Decidable (_ ∨ _))

/-- Every phrase of a category that groups to the left is made of links. -/
theorem Derives.linked {category : Category} {phrase : Phrase} (hderives : Derives category phrase)
    (hleft : category.GroupsLeft) : Linked Derives category phrase := by
  induction hderives with
  | @past object offset _ hoffset ihobject =>
    have hlink : (Link.index offset).Of Derives .indexed := ⟨rfl, hoffset⟩
    exact (ihobject hleft).onto hlink
  | @joined category operator left right hoperator hpower _ hright ihleft =>
    have hlink : (Link.join operator right).Of Derives category := ⟨hoperator, hpower, hright⟩
    exact (ihleft hleft).onto hlink
  | tighter _ hphrase => exact linked_of_tighter hphrase
  | _ => exact absurd hleft (by decide)

end Candlewick.Grammar
