import Candlewick.Proofs.Grammar.Completeness.Continuing
import Candlewick.Proofs.Grammar.Progress
import Candlewick.Proofs.Node.Walk

namespace Candlewick.Grammar

/-- What a loop joins to the tree it has: an operator with its right operand, or an index. -/
inductive Join where
  | binary (operator : BinaryOperator) (right : Node)
  | past (offset : Node)

namespace Join

/-- The tree that is joined. -/
def part : Join → Node
  | binary _ right => right
  | past offset => offset

/-- The tree that comes of a join. -/
def onto (left : Node) : Join → Node
  | binary operator right => .binary operator left right
  | past offset => .past left offset

/-- What comes of a join is one deeper than the deeper one of its parts. -/
theorem depth_onto (left : Node) (join : Join) :
    (join.onto left).depth = max left.depth join.part.depth + 1 := by
  cases join <;> simp [onto, part, Node.depth_eq_height]

end Join

/-- The tree that comes of some joins, one after another. -/
def joined (first : Node) (joins : List Join) : Node :=
  joins.foldl Join.onto first

@[simp] theorem joined_nil (first : Node) : joined first [] = first := rfl

@[simp] theorem joined_concat (first : Node) (joins : List Join) (join : Join) :
    joined first (joins ++ [join]) = join.onto (joined first joins) := by
  simp [joined]

/-- The depth that a loop knows after some joins. Before the first one it knows none. -/
def tracked (first : Node) : List Join → Option Nat
  | [] => none
  | joins => some (joined first joins).depth

/-- The depth that is known behind a join is that of the tree. -/
theorem tracked_concat (first : Node) (joins : List Join) (join : Join) :
    tracked first (joins ++ [join]) = some (join.onto (joined first joins)).depth := by
  rw [← joined_concat]
  cases joins <;> rfl

/-- A loop never carries a wrong depth along. -/
theorem knownDepth_tracked (first : Node) (joins : List Join) :
    KnownDepth (tracked first joins) (joined first joins) := by
  cases joins with
  | nil => exact knownDepth_none first
  | cons join joins => exact knownDepth_some _

namespace Category

/-- The categories whose readers join one tree after another: the chains and the indices. -/
def IsLoop (category : Category) : Prop :=
  category.IsChain ∨ category = .indexed

/-- Nothing more is joined here. -/
def Halts (category : Category) (s : State) : Prop :=
  category.operators s.ahead.kind = none ∧
    (category = .indexed → s.ahead.kind ≠ .punctuation .leftBracket)

variable {limits : Limits} {deeper : Deeper} {category : Category}

/-- The reader of a loop reads the first tree and goes on from it, with no depth known. -/
theorem IsLoop.reader_eq (hloop : category.IsLoop) :
    category.reader limits deeper = (do
      let first ← category.tighter.reader limits deeper
      category.onward limits deeper ((← remaining) + 1) none first) := by
  rcases hloop with hchain | rfl
  · rw [reader_chain hchain, onward_chain hchain]
    rfl
  · rfl

end Category

variable {limits : Limits} {deeper : Deeper} {category : Category} {s later : State}

/-- One round of a loop: an operator and its operand, or an index in its brackets, are read. -/
inductive Round (limits : Limits) (deeper : Deeper) : Category → State → Join → State → Prop where
  | binary {category : Category} {s later : State} {operator : BinaryOperator} {right : Node}
    (hchain : category.IsChain) (htable : category.operators s.ahead.kind = some operator)
    (hright : category.tighter.reader limits deeper s.skipped = .ok right later) :
    Round limits deeper category s (.binary operator right) later
  | past {s middle : State} {offset : Node}
    (hopen : s.ahead.kind = .punctuation .leftBracket)
    (hoffset : deeper.expression s.skipped = .ok offset middle)
    (hclose : middle.ahead.kind = .punctuation .rightBracket) :
    Round limits deeper .indexed s (.past offset) middle.skipped

/-- Some rounds of a loop, one after another. -/
inductive Rounds (limits : Limits) (deeper : Deeper) (category : Category) (start : State) :
    List Join → State → Prop where
  | nil : Rounds limits deeper category start [] start
  | concat {joins : List Join} {join : Join} {middle later : State}
    (hrounds : Rounds limits deeper category start joins middle)
    (hround : Round limits deeper category middle join later) :
    Rounds limits deeper category start (joins ++ [join]) later

/-- A join is refused if its tree is too deep, and else its depth is known from then on. -/
theorem joinedDepth_bind {known : Option Nat} {left : Node} (hknown : KnownDepth known left)
    (join : Join) (next : Nat → Reader Node) :
    (joinedDepth limits known left join.part >>= next) s =
      if limits.depth < (join.onto left).depth then .error ⟨.nestedTooDeeply, s.ahead.place⟩ s
      else next (join.onto left).depth s := by
  have hdepth : known.getD left.depth = left.depth := by
    cases known with
    | none => rfl
    | some depth => exact hknown depth rfl
  rw [join.depth_onto, joinedDepth, hdepth]
  split <;> rfl

/-- What a loop does in one round. -/
theorem Round.onward_eq {join : Join} (hround : Round limits deeper category s join later)
    {known : Option Nat} {left : Node} (hknown : KnownDepth known left) (fuel : Nat) :
    category.onward limits deeper (fuel + 1) known left s =
      if limits.depth < (join.onto left).depth then
        .error ⟨.nestedTooDeeply, later.ahead.place⟩ later
      else category.onward limits deeper fuel (some (join.onto left).depth) (join.onto left)
        later := by
  cases hround with
  | @binary _ _ _ operator right hchain htable hright =>
    have hkind : peekKind s = .ok s.ahead.kind s := rfl
    have hskip : skip s = .ok () s.skipped := rfl
    rw [Category.onward_chain hchain, chainFrom, bind_of_ok hkind, htable]
    dsimp only
    rw [bind_of_ok hskip, bind_of_ok hright]
    exact joinedDepth_bind hknown (.binary operator right) _
  | @past _ middle offset hopen hoffset hclose =>
    change postfixFrom outOfRounds limits deeper (fuel + 1) known left s = _
    rw [postfixFrom, bind_of_ok (accept_of_eq hopen), if_pos rfl, bind_of_ok hoffset,
      bind_of_ok (expectSign_of_eq hclose)]
    exact joinedDepth_bind hknown (.past offset) _

/-- Where nothing more is joined, a loop ends with the tree it has. -/
theorem Category.Halts.onward_eq (hhalts : category.Halts s) (hloop : category.IsLoop) (fuel : Nat)
    (known : Option Nat) (left : Node) :
    category.onward limits deeper (fuel + 1) known left s = .ok left s := by
  have hkind : peekKind s = .ok s.ahead.kind s := rfl
  rcases hloop with hchain | rfl
  · rw [onward_chain hchain, chainFrom, bind_of_ok hkind, hhalts.1]
    rfl
  · change postfixFrom outOfRounds limits deeper (fuel + 1) known left s = _
    rw [postfixFrom, bind_of_ok (accept_of_ne (hhalts.2 rfl))]
    rfl

/-- A round takes tokens, so there are as many rounds as tokens at most. -/
theorem Round.length_lt {left : Nat} {join : Join}
    (hround : Round limits (levels limits left) category s join later) :
    later.tokens.length < s.tokens.length := by
  cases hround with
  | binary hchain htable hright =>
    have hskipped := State.length_skipped_lt (Category.ne_sourceEnd_of_operators htable)
    have hlater := (Category.reader_sound _ _ _).length_lt hright
    omega
  | @past _ middle offset hopen hoffset hclose =>
    have hskipped : s.skipped.tokens.length < s.tokens.length :=
      State.length_skipped_lt (by rw [hopen]; simp)
    have hmiddle := (levels_sound left).1.length_lt hoffset
    have hlater : middle.skipped.tokens.length < middle.tokens.length :=
      State.length_skipped_lt (by rw [hclose]; simp)
    omega

/-- The depth that is known after some joins keeps to the bound. -/
def Allowed (limits : Limits) (first : Node) (joins : List Join) : Prop :=
  ∀ depth, tracked first joins = some depth → depth ≤ limits.depth

/-- One more join is allowed if what comes of it is. -/
theorem allowed_concat_iff {first : Node} {joins : List Join} {join : Join} :
    Allowed limits first (joins ++ [join]) ↔
      (join.onto (joined first joins)).depth ≤ limits.depth := by
  simp [Allowed, tracked_concat]

/-- A tree is allowed only if the trees that it was made of are. -/
theorem Allowed.of_concat {first : Node} {joins : List Join} {join : Join}
    (hallowed : Allowed limits first (joins ++ [join])) : Allowed limits first joins := by
  intro depth htracked
  have hbound := allowed_concat_iff.1 hallowed
  rw [join.depth_onto] at hbound
  rw [knownDepth_tracked first joins depth htracked]
  omega

variable {left : Nat} {start : State} {first : Node} {joins : List Join}

/-- After some rounds a loop has the tree of the joins, and knows its depth. -/
theorem Rounds.onward_eq (hrounds : Rounds limits (levels limits left) category start joins later)
    (hallowed : Allowed limits first joins) :
    ∃ fuel, later.tokens.length < fuel ∧
      category.onward limits (levels limits left) (start.tokens.length + 1) none first start =
        category.onward limits (levels limits left) fuel (tracked first joins)
          (joined first joins) later := by
  induction hrounds with
  | nil => exact ⟨_, Nat.lt_succ_self _, rfl⟩
  | @concat joins join middle later _ hround ih =>
    -- The depth known so far is that of the tree so far, so the next tree is measured rightly.
    obtain ⟨fuel, hfuel, hrun⟩ := ih hallowed.of_concat
    have hshorter := hround.length_lt
    obtain ⟨fuel, rfl⟩ : ∃ fewer, fuel = fewer + 1 := ⟨fuel - 1, by omega⟩
    refine ⟨fuel, by omega, ?_⟩
    rw [hrun, hround.onward_eq (knownDepth_tracked first joins),
      if_neg (Nat.not_lt.2 (allowed_concat_iff.1 hallowed)), tracked_concat, joined_concat]

/-- If a tree is too deep, there is a first one that is. -/
theorem Rounds.exists_first_beyond {deeper : Deeper}
    (hrounds : Rounds limits deeper category start joins later)
    (hbeyond : ¬ Allowed limits first joins) :
    ∃ earlier join more middle after, joins = earlier ++ join :: more ∧
      Rounds limits deeper category start earlier middle ∧
      Round limits deeper category middle join after ∧ Allowed limits first earlier ∧
      limits.depth < (join.onto (joined first earlier)).depth := by
  induction hrounds with
  | nil => exact absurd (fun _ htracked => nomatch htracked) hbeyond
  | @concat joins join middle later hrounds hround ih =>
    by_cases hallowed : Allowed limits first joins
    · refine ⟨joins, join, [], middle, later, rfl, hrounds, hround, hallowed, ?_⟩
      exact Nat.lt_of_not_le fun hbound => hbeyond (allowed_concat_iff.2 hbound)
    · obtain ⟨earlier, offending, more, before, after, rfl, hfound⟩ := ih hallowed
      exact ⟨earlier, offending, more ++ [join], before, after, by simp, hfound⟩

/-- The depth of a tree is found by any walk over it, and the loops of the reading carry it along.
    A loop that has read some joins goes on from their tree with its depth known, ends with that
    tree where nothing more is joined, and refuses the source at the first join whose tree is too
    deep. -/
theorem depth_is_tracked (limits : Limits) (left : Nat) :
    (∀ node : Node, node.depth = (node.children.map Node.depth).foldr max 0 + 1) ∧
    (WellFounded fun later walk => Node.Walk.Visits walk later) ∧
    (∀ node walk, Relation.ReflTransGen Node.Walk.Visits (.start node) walk →
      (∀ later, ¬ Node.Walk.Visits walk later) → walk = ⟨node.depth, []⟩) ∧
    ∀ category : Category, category.IsLoop → ∀ s first start joins later,
      category.tighter.reader limits (levels limits left) s = .ok first start →
      Rounds limits (levels limits left) category start joins later →
      (Allowed limits first joins →
        (∃ fuel, later.tokens.length < fuel ∧
          category.reader limits (levels limits left) s =
            category.onward limits (levels limits left) fuel (tracked first joins)
              (joined first joins) later) ∧
        (category.Halts later →
          category.reader limits (levels limits left) s = .ok (joined first joins) later)) ∧
      (¬ Allowed limits first joins →
        ∃ earlier join more middle after, joins = earlier ++ join :: more ∧
          Rounds limits (levels limits left) category start earlier middle ∧
          Round limits (levels limits left) category middle join after ∧
          Allowed limits first earlier ∧
          limits.depth < (joined first (earlier ++ [join])).depth ∧
          category.reader limits (levels limits left) s =
            .error ⟨.nestedTooDeeply, after.ahead.place⟩ after) := by
  refine ⟨Node.depth_eq_children, Node.Walk.wellFounded_visits, ?_, ?_⟩
  · intro node walk hwalk hfinished
    exact Node.Walk.eq_of_finished hwalk hfinished
  intro category hloop s first start joins later hfirst hrounds
  have hreader : category.reader limits (levels limits left) s =
      category.onward limits (levels limits left) (start.tokens.length + 1) none first start := by
    have hremaining : remaining start = .ok start.tokens.length start := rfl
    rw [hloop.reader_eq, bind_of_ok hfirst, bind_of_ok hremaining]
  refine ⟨fun hallowed => ?_, fun hbeyond => ?_⟩
  · obtain ⟨fuel, hfuel, hrun⟩ := hrounds.onward_eq hallowed
    obtain ⟨fuel, rfl⟩ : ∃ fewer, fuel = fewer + 1 := ⟨fuel - 1, by omega⟩
    rw [hreader, hrun]
    exact ⟨⟨fuel + 1, hfuel, rfl⟩, fun hhalts => hhalts.onward_eq hloop _ _ _⟩
  · obtain ⟨earlier, join, more, middle, after, rfl, hearlier, hround, hallowed, hdeep⟩ :=
      hrounds.exists_first_beyond hbeyond
    refine ⟨earlier, join, more, middle, after, rfl, hearlier, hround, hallowed, ?_, ?_⟩
    · rw [joined_concat]
      exact hdeep
    · obtain ⟨fuel, hfuel, hrun⟩ := hearlier.onward_eq hallowed
      have hshorter := hround.length_lt
      obtain ⟨fuel, rfl⟩ : ∃ fewer, fuel = fewer + 1 := ⟨fuel - 1, by omega⟩
      rw [hreader, hrun, hround.onward_eq (knownDepth_tracked first earlier), if_pos hdeep]

/-- A walk over `- a`, and the reading of `a + b - c`, whose tree is three levels deep. -/
theorem depth_is_tracked_three_names :
    (∃ walk, Relation.ReflTransGen Node.Walk.Visits (.start (.unary .neg (.name "a"))) walk ∧
      (∀ later, ¬ Node.Walk.Visits walk later) ∧
      walk = ⟨(Node.unary .neg (.name "a")).depth, []⟩) ∧
    ∃ s start later joins,
      (∀ limits, Category.product.reader limits (levels limits 0) s = .ok (.name "a") start) ∧
      (∀ limits, Rounds limits (levels limits 0) .sum start joins later) ∧
      Allowed ⟨4, 3⟩ (.name "a") joins ∧ Category.sum.Halts later ∧
      Category.sum.reader ⟨4, 3⟩ (levels ⟨4, 3⟩ 0) s = .ok (joined (.name "a") joins) later ∧
      ¬ Allowed ⟨4, 2⟩ (.name "a") joins ∧
      ∃ after, Category.sum.reader ⟨4, 2⟩ (levels ⟨4, 2⟩ 0) s =
        .error ⟨.nestedTooDeeply, after.ahead.place⟩ after := by
  have hloop : Category.sum.IsLoop := .inl ⟨by decide, by decide⟩
  have hwalk : Relation.ReflTransGen Node.Walk.Visits (.start (.unary .neg (.name "a")))
      ⟨2, []⟩ :=
    .tail (.single (.visit (.refl _) (.refl _))) (.visit (.refl _) (.refl _))
  have hfinished : ∀ later, ¬ Node.Walk.Visits ⟨2, []⟩ later := by
    rintro later ⟨htaken, -⟩
    exact absurd htaken.length_eq (by simp)
  have hrounds : ∀ limits, Rounds limits (levels limits 0) .sum
      { tokens := [⟨.mark .plus, "+", ⟨2, 1, 3⟩⟩, ⟨.identifier "b", "b", ⟨4, 1, 5⟩⟩,
        ⟨.mark .minus, "-", ⟨6, 1, 7⟩⟩, ⟨.identifier "c", "c", ⟨8, 1, 9⟩⟩,
        .sourceEnd ⟨9, 1, 10⟩] }
      ([] ++ [.binary .add (.name "b")] ++ [.binary .sub (.name "c")])
      { tokens := [.sourceEnd ⟨9, 1, 10⟩] } := by
    intro limits
    refine .concat (.concat .nil (.binary ⟨by decide, by decide⟩ rfl rfl)) ?_
    exact .binary ⟨by decide, by decide⟩ rfl rfl
  have hfirst : ∀ limits, Category.product.reader limits (levels limits 0)
      { tokens := [⟨.identifier "a", "a", ⟨0, 1, 1⟩⟩, ⟨.mark .plus, "+", ⟨2, 1, 3⟩⟩,
        ⟨.identifier "b", "b", ⟨4, 1, 5⟩⟩, ⟨.mark .minus, "-", ⟨6, 1, 7⟩⟩,
        ⟨.identifier "c", "c", ⟨8, 1, 9⟩⟩, .sourceEnd ⟨9, 1, 10⟩] } =
      .ok (.name "a") _ := fun _ => rfl
  have hdepth :
      (Node.binary .sub (.binary .add (.name "a") (.name "b")) (.name "c")).depth = 3 := by
    simp [Node.depth_eq_height]
  have hallowed : Allowed ⟨4, 3⟩ (.name "a")
      ([] ++ [.binary .add (.name "b")] ++ [.binary .sub (.name "c")]) :=
    allowed_concat_iff.2 (Nat.le_of_eq hdepth)
  have hbeyond : ¬ Allowed ⟨4, 2⟩ (.name "a")
      ([] ++ [.binary .add (.name "b")] ++ [.binary .sub (.name "c")]) := by
    intro hallowed
    exact absurd (hdepth ▸ allowed_concat_iff.1 hallowed : 3 ≤ 2) (by decide)
  have hhalts : Category.sum.Halts { tokens := [.sourceEnd ⟨9, 1, 10⟩] } := ⟨rfl, by decide⟩
  refine ⟨⟨_, hwalk, hfinished, (depth_is_tracked ⟨4, 3⟩ 0).2.2.1 _ _ hwalk hfinished⟩, ?_⟩
  have hread := (depth_is_tracked ⟨4, 3⟩ 0).2.2.2 _ hloop _ _ _ _ _ (hfirst _) (hrounds _)
  have hrefused := (depth_is_tracked ⟨4, 2⟩ 0).2.2.2 _ hloop _ _ _ _ _ (hfirst _) (hrounds _)
  obtain ⟨_, _, _, _, after, _, _, _, _, _, herror⟩ := hrefused.2 hbeyond
  exact ⟨_, _, _, _, hfirst, hrounds, hallowed, hhalts, (hread.1 hallowed).2 hhalts, hbeyond,
    after, herror⟩

end Candlewick.Grammar
