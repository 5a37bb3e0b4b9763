import Candlewick.Proofs.Grammar.Phrase

namespace Candlewick.Grammar

/-- The categories of the grammar, from the loosest to the tightest. -/
inductive Category where
  | expression
  | or
  | and
  | equality
  | comparison
  | sum
  | product
  | power
  | unary
  | indexed
  | primary
deriving DecidableEq

namespace Category

/-- The next tighter category. -/
def tighter : Category → Category
  | expression => or
  | or => and
  | and => equality
  | equality => comparison
  | comparison => sum
  | sum => product
  | product => power
  | power => unary
  | unary => indexed
  | indexed | primary => primary

/-- The place of a category in the order, counted from one. -/
def rank : Category → Nat
  | expression => 1
  | or => 2
  | and => 3
  | equality => 4
  | comparison => 5
  | sum => 6
  | product => 7
  | power => 8
  | unary => 9
  | indexed => 10
  | primary => 11

/-- Every category but the tightest is followed by a tighter one, whose rank is next. -/
theorem rank_tighter {category : Category} (hprimary : category ≠ .primary) :
    category.tighter.rank = category.rank + 1 := by
  cases category <;> first | rfl | contradiction

/-- A category is known by its rank. -/
theorem rank_injective {category other : Category} (hrank : category.rank = other.rank) :
    category = other := by
  cases category <;> cases other <;> first | rfl | cases hrank

end Category

/-- The category whose phrases an operator makes. -/
def operatorCategory : BinaryOperator → Category
  | .or => .or
  | .and => .and
  | .eq | .ne => .equality
  | .gt | .ge | .lt | .le => .comparison
  | .add | .sub => .sum
  | .mul | .div | .mod => .product
  | .pow => .power

/-- The productions of the grammar. Operators of one category group to the left, powers to the
    right. -/
inductive Derives : Category → Phrase → Prop where
  | number (value : Float) : Derives .primary (.number value)
  | text (content : String) : Derives .primary (.text content)
  | truth (value : Bool) : Derives .primary (.truth value)
  | price (field : PriceField) : Derives .primary (.price field)
  | name (word : String) : Derives .primary (.name word)
  | call {callee : Callee} {arguments : List Phrase}
    (harguments : ∀ argument ∈ arguments, Derives .expression argument) :
    Derives .primary (.call callee arguments)
  | group {inner : Phrase} (hinner : Derives .expression inner) : Derives .primary (.group inner)
  | past {object offset : Phrase} (hobject : Derives .indexed object)
    (hoffset : Derives .expression offset) : Derives .indexed (.past object offset)
  | unary {operator : UnaryOperator} {operand : Phrase} (hoperand : Derives .unary operand) :
    Derives .unary (.unary operator operand)
  | power {base exponent : Phrase} (hbase : Derives .unary base)
    (hexponent : Derives .power exponent) : Derives .power (.binary .pow base exponent)
  | joined {category : Category} {operator : BinaryOperator} {left right : Phrase}
    (hoperator : operatorCategory operator = category) (hchain : category ≠ .power)
    (hleft : Derives category left) (hright : Derives category.tighter right) :
    Derives category (.binary operator left right)
  | assign {target : String} {value : Phrase} (hvalue : Derives .expression value) :
    Derives .expression (.assign target value)
  | ifThen {condition consequent : Phrase} (hcondition : Derives .expression condition)
    (hconsequent : Derives .expression consequent) :
    Derives .expression (.ifThen condition consequent)
  | ifThenElse {condition consequent alternative : Phrase}
    (hcondition : Derives .expression condition) (hconsequent : Derives .expression consequent)
    (halternative : Derives .expression alternative) :
    Derives .expression (.ifThenElse condition consequent alternative)
  | tighter {category : Category} {phrase : Phrase} (hprimary : category ≠ .primary)
    (hphrase : Derives category.tighter phrase) : Derives category phrase

/-- A phrase of a category is one of every looser category. -/
theorem Derives.loosen {category inner : Category} {phrase : Phrase}
    (hderives : Derives inner phrase) (hrank : category.rank ≤ inner.rank) :
    Derives category phrase := by
  obtain ⟨distance, hdistance⟩ := Nat.exists_eq_add_of_le hrank
  induction distance generalizing category with
  | zero =>
    obtain rfl := Category.rank_injective hdistance
    exact hderives
  | succ distance ih =>
    have hprimary : category ≠ .primary := by
      rintro rfl
      cases inner <;> simp [Category.rank] at hdistance <;> omega
    have htighter := Category.rank_tighter hprimary
    exact .tighter hprimary (ih (by omega) (by omega))

/-- A name is a phrase of every category. -/
theorem derives_name (category : Category) (word : String) : Derives category (.name word) :=
  (Derives.name word).loosen (by cases category <;> decide)

namespace Phrase

mutual

/-- Every `else` belongs to the nearest `if` before it that can take it: what stands between a
    `then` and its `else` does not end with a conditional that lacks one. -/
def ElseNearest : Phrase → Prop
  | number _ | text _ | truth _ | price _ | name _ => True
  | call _ arguments => EachElseNearest arguments
  | group inner => inner.ElseNearest
  | past object offset => object.ElseNearest ∧ offset.ElseNearest
  | unary _ operand => operand.ElseNearest
  | binary _ left right => left.ElseNearest ∧ right.ElseNearest
  | assign _ value => value.ElseNearest
  | ifThen condition consequent => condition.ElseNearest ∧ consequent.ElseNearest
  | ifThenElse condition consequent alternative =>
    consequent.isOpen = false ∧
      condition.ElseNearest ∧ consequent.ElseNearest ∧ alternative.ElseNearest

/-- The rule for several phrases. -/
def EachElseNearest : List Phrase → Prop
  | [] => True
  | phrase :: rest => phrase.ElseNearest ∧ EachElseNearest rest

end

/-- In several phrases every `else` is at the nearest `if` just when it is so in each of them. -/
theorem eachElseNearest_iff {phrases : List Phrase} :
    EachElseNearest phrases ↔ ∀ phrase ∈ phrases, phrase.ElseNearest := by
  induction phrases with
  | nil => simp [EachElseNearest]
  | cons phrase rest ih => simp [EachElseNearest, ih]

end Phrase

end Candlewick.Grammar
