import Candlewick.Proofs.Grammar.Consequents
import Mathlib.Logic.Basic

namespace Candlewick.Grammar

namespace Phrase

/-- An open phrase with an `else` for the first conditional at its end that has none. -/
def withElse : Phrase → Phrase → Phrase
  | ifThen condition consequent, alternative => ifThenElse condition consequent alternative
  | ifThenElse condition consequent otherwise, alternative =>
    ifThenElse condition consequent (otherwise.withElse alternative)
  | assign target value, alternative => assign target (value.withElse alternative)
  | phrase, _ => phrase

/-- Whether a phrase ends with an `else` that it could spare: it is a conditional with one, or assigns
    the value of such a phrase. -/
def sparesElse : Phrase → Bool
  | ifThenElse _ _ _ => true
  | assign _ value => value.sparesElse
  | _ => false

/-- One `else` is moved from a conditional to another one at the end of its consequent. The tree
    changes, and every terminal stays where it is. -/
inductive Moved : Phrase → Phrase → Prop where
  | here {condition consequent alternative : Phrase} (hopen : consequent.isOpen = true) :
    Moved (ifThenElse condition consequent alternative)
      (ifThen condition (consequent.withElse alternative))
  | argument {callee : Callee} {before after : List Phrase} {argument argument' : Phrase}
    (hmoved : Moved argument argument') :
    Moved (call callee (before ++ argument :: after)) (call callee (before ++ argument' :: after))
  | group {inner inner' : Phrase} (hmoved : Moved inner inner') : Moved (group inner) (group inner')
  | object {object object' offset : Phrase} (hmoved : Moved object object') :
    Moved (past object offset) (past object' offset)
  | offset {object offset offset' : Phrase} (hmoved : Moved offset offset') :
    Moved (past object offset) (past object offset')
  | operand {operator : UnaryOperator} {operand operand' : Phrase} (hmoved : Moved operand operand') :
    Moved (unary operator operand) (unary operator operand')
  | left {operator : BinaryOperator} {left left' right : Phrase} (hmoved : Moved left left') :
    Moved (binary operator left right) (binary operator left' right)
  | right {operator : BinaryOperator} {left right right' : Phrase} (hmoved : Moved right right') :
    Moved (binary operator left right) (binary operator left right')
  | value {target : String} {value value' : Phrase} (hmoved : Moved value value') :
    Moved (assign target value) (assign target value')
  | condition {condition condition' consequent : Phrase} (hmoved : Moved condition condition') :
    Moved (ifThen condition consequent) (ifThen condition' consequent)
  | consequent {condition consequent consequent' : Phrase} (hmoved : Moved consequent consequent') :
    Moved (ifThen condition consequent) (ifThen condition consequent')
  | conditionElse {condition condition' consequent alternative : Phrase}
    (hmoved : Moved condition condition') :
    Moved (ifThenElse condition consequent alternative)
      (ifThenElse condition' consequent alternative)
  | consequentElse {condition consequent consequent' alternative : Phrase}
    (hmoved : Moved consequent consequent') :
    Moved (ifThenElse condition consequent alternative)
      (ifThenElse condition consequent' alternative)
  | alternative {condition consequent alternative alternative' : Phrase}
    (hmoved : Moved alternative alternative') :
    Moved (ifThenElse condition consequent alternative)
      (ifThenElse condition consequent alternative')

/-- The `else` that an open phrase is given stands behind all of its terminals, wherever in the tree
    it is. -/
theorem terminals_withElse {phrase : Phrase} (alternative : Phrase) (hopen : phrase.isOpen = true) :
    (phrase.withElse alternative).terminals =
      phrase.terminals ++ .word .elseWord :: alternative.terminals := by
  fun_induction withElse phrase alternative with
  | case1 => simp [terminals]
  | case2 _ _ _ _ ih => simp [terminals, ih hopen]
  | case3 _ _ _ ih => simp [terminals, ih hopen]
  | case4 phrase => cases phrase <;> simp_all [isOpen]

/-- The terminals of a list do not change if one of its phrases is replaced by one with the same
    terminals. -/
theorem listed_congr {phrase phrase' : Phrase} (hterminals : phrase.terminals = phrase'.terminals)
    (before after : List Phrase) :
    listed (before ++ phrase :: after) = listed (before ++ phrase' :: after) := by
  induction before with
  | nil => cases after <;> simp [listed, hterminals]
  | cons first before ih =>
    cases before with
    | nil => simpa [listed] using ih
    | cons second before => simpa [listed] using ih

/-- No terminal is moved. -/
theorem Moved.terminals_eq {phrase phrase' : Phrase} (hmoved : Moved phrase phrase') :
    phrase.terminals = phrase'.terminals := by
  induction hmoved with
  | @here condition consequent alternative hopen =>
    simp [terminals, terminals_withElse alternative hopen]
  | argument _ ih => rw [terminals, terminals, listed_congr ih]
  | _ => simp_all [terminals]

/-- The tree is another one. -/
theorem Moved.node_ne {phrase phrase' : Phrase} (hmoved : Moved phrase phrase') :
    phrase.node ≠ phrase'.node := by
  induction hmoved with
  | here => simp [node]
  | argument _ ih => simp [node, nodes_eq_map, ih]
  | group _ ih => exact ih
  | _ => simp_all [node]

mutual

/-- Which `if` the `else` of each conditional in a phrase belongs to: the positions of both among
    terminals, of which the phrase begins at `start`. -/
def elses (start : Nat) : Phrase → List (Nat × Nat)
  | number _ | text _ | truth _ | price _ | name _ => []
  | call _ arguments => elsesOf (start + 2) arguments
  | group inner => inner.elses (start + 1)
  | past object offset =>
    object.elses start ++ offset.elses (start + object.terminals.length + 1)
  | unary _ operand => operand.elses (start + 1)
  | binary _ left right => left.elses start ++ right.elses (start + left.terminals.length + 1)
  | assign _ value => value.elses (start + 2)
  | ifThen condition consequent =>
    condition.elses (start + 1) ++ consequent.elses (start + 1 + condition.terminals.length + 1)
  | ifThenElse condition consequent alternative =>
    let behindThen := start + 1 + condition.terminals.length + 1
    let position := behindThen + consequent.terminals.length
    (start, position) :: (condition.elses (start + 1) ++
      (consequent.elses behindThen ++ alternative.elses (position + 1)))

/-- The same for several phrases with one terminal between any two of them. -/
def elsesOf (start : Nat) : List Phrase → List (Nat × Nat)
  | [] => []
  | phrase :: rest =>
    phrase.elses start ++ elsesOf (start + phrase.terminals.length + 1) rest

end

/-- An `else` with the one `if` in one list and with another one in the other. -/
def ElseDiffers (one other : List (Nat × Nat)) : Prop :=
  ∃ owner owner' position, (owner, position) ∈ one ∧ (owner', position) ∈ other ∧ owner ≠ owner'

/-- A difference in where an `else` belongs is still there among more of them. -/
theorem ElseDiffers.mono {one other one' other' : List (Nat × Nat)}
    (hdiffers : ElseDiffers one other) (hone : one ⊆ one') (hother : other ⊆ other') :
    ElseDiffers one' other' := by
  obtain ⟨owner, owner', position, hmem, hmem', hne⟩ := hdiffers
  exact ⟨owner, owner', position, hone hmem, hother hmem', hne⟩

/-- The `else` behind an open phrase belongs to an `if` within that phrase. -/
theorem exists_else_withElse {phrase : Phrase} (alternative : Phrase)
    (hopen : phrase.isOpen = true) (start : Nat) :
    ∃ owner, start ≤ owner ∧
      (owner, start + phrase.terminals.length) ∈ (phrase.withElse alternative).elses start := by
  fun_induction withElse phrase alternative generalizing start with
  | case1 condition consequent =>
    refine ⟨start, Nat.le_refl _, List.mem_cons.2 (.inl ?_)⟩
    simp [terminals]
    omega
  | case2 condition consequent otherwise alternative ih =>
    obtain ⟨owner, howner, hmem⟩ := ih hopen
      (start + 1 + condition.terminals.length + 1 + consequent.terminals.length + 1)
    refine ⟨owner, by omega, ?_⟩
    have hposition : start + (ifThenElse condition consequent otherwise).terminals.length =
        start + 1 + condition.terminals.length + 1 + consequent.terminals.length + 1 +
          otherwise.terminals.length := by
      simp [terminals]
      omega
    rw [hposition, elses]
    exact List.mem_cons_of_mem _ (List.mem_append_right _ (List.mem_append_right _ hmem))
  | case3 target value alternative ih =>
    obtain ⟨owner, howner, hmem⟩ := ih hopen (start + 2)
    refine ⟨owner, by omega, ?_⟩
    have hposition : start + (assign target value).terminals.length =
        start + 2 + value.terminals.length := by
      simp [terminals]
      omega
    rw [hposition, elses]
    exact hmem
  | case4 phrase => cases phrase <;> simp_all [isOpen]

/-- A difference within one phrase of a list is a difference in the list. -/
theorem elseDiffers_elsesOf {phrase phrase' : Phrase}
    (hdiffers : ∀ start, ElseDiffers (phrase.elses start) (phrase'.elses start))
    (before after : List Phrase) (start : Nat) :
    ElseDiffers (elsesOf start (before ++ phrase :: after))
      (elsesOf start (before ++ phrase' :: after)) := by
  induction before generalizing start with
  | nil =>
    exact (hdiffers start).mono (List.subset_append_left _ _) (List.subset_append_left _ _)
  | cons first before ih =>
    exact (ih _).mono (List.subset_append_right _ _) (List.subset_append_right _ _)

/-- The `else` belongs to another `if`. -/
theorem Moved.elseDiffers {phrase phrase' : Phrase} (hmoved : Moved phrase phrase') (start : Nat) :
    ElseDiffers (phrase.elses start) (phrase'.elses start) := by
  have hleft : ∀ {one other : List (Nat × Nat)} (rest rest' : List (Nat × Nat)),
      ElseDiffers one other → ElseDiffers (one ++ rest) (other ++ rest') :=
    fun _ _ hdiffers => hdiffers.mono (List.subset_append_left _ _) (List.subset_append_left _ _)
  have hright : ∀ {one other : List (Nat × Nat)} (front front' : List (Nat × Nat)),
      ElseDiffers one other → ElseDiffers (front ++ one) (front' ++ other) :=
    fun _ _ hdiffers => hdiffers.mono (List.subset_append_right _ _) (List.subset_append_right _ _)
  have hcons : ∀ {one other : List (Nat × Nat)} (entry entry' : Nat × Nat),
      ElseDiffers one other → ElseDiffers (entry :: one) (entry' :: other) :=
    fun _ _ hdiffers => hdiffers.mono (List.subset_cons_self _ _) (List.subset_cons_self _ _)
  induction hmoved generalizing start with
  | @here condition consequent alternative hopen =>
    obtain ⟨owner, howner, hmem⟩ := exists_else_withElse alternative hopen
      (start + 1 + condition.terminals.length + 1)
    refine ⟨start, owner, _, List.mem_cons_self, ?_, by omega⟩
    exact List.mem_append_right _ hmem
  | argument _ ih => exact elseDiffers_elsesOf ih _ _ _
  | group _ ih => exact ih (start + 1)
  | object _ ih => exact hleft _ _ (ih start)
  | offset _ ih => exact hright _ _ (ih _)
  | operand _ ih => exact ih (start + 1)
  | left _ ih => exact hleft _ _ (ih start)
  | right _ ih => exact hright _ _ (ih _)
  | value _ ih => exact ih (start + 2)
  | condition _ ih => exact hleft _ _ (ih (start + 1))
  | consequent _ ih => exact hright _ _ (ih _)
  | conditionElse _ ih => exact hcons _ _ (hleft _ _ (ih (start + 1)))
  | consequentElse _ ih => exact hcons _ _ (hright _ _ (hleft _ _ (ih _)))
  | alternative _ ih => exact hcons _ _ (hright _ _ (hright _ _ (ih _)))

/-- What ends with an `else` behind a move could spare it: the conditional that it was taken from is
    without one. -/
theorem sparesElse_withElse {phrase : Phrase} (alternative : Phrase)
    (hopen : phrase.isOpen = true) : (phrase.withElse alternative).sparesElse = true := by
  fun_induction withElse phrase alternative with
  | case1 | case2 => rfl
  | case3 _ _ _ ih => exact ih hopen
  | case4 phrase => cases phrase <;> simp_all [isOpen]

/-- A consequent within several phrases lies within one of them. -/
theorem mem_consequentsOf {phrases : List Phrase} {consequent : Phrase} :
    consequent ∈ consequentsOf phrases ↔ ∃ phrase ∈ phrases, consequent ∈ phrase.consequents := by
  induction phrases with
  | nil => simp [consequentsOf]
  | cons phrase rest ih => simp [consequentsOf, ih]

/-- Behind a move there is a conditional without an `else` whose consequent could spare one. -/
theorem Moved.exists_sparesElse {phrase phrase' : Phrase} (hmoved : Moved phrase phrase') :
    ∃ consequent ∈ phrase'.consequents, consequent.sparesElse = true := by
  have hmono : ∀ {part whole : List Phrase}, part ⊆ whole →
      (∃ consequent ∈ part, consequent.sparesElse = true) →
      ∃ consequent ∈ whole, consequent.sparesElse = true :=
    fun hsubset ⟨_, hmem, hspares⟩ => ⟨_, hsubset hmem, hspares⟩
  induction hmoved with
  | @here condition consequent alternative hopen =>
    exact ⟨consequent.withElse alternative, by simp [consequents],
      sparesElse_withElse alternative hopen⟩
  | @argument callee before after argument argument' _ ih =>
    refine hmono (fun consequent hmem => ?_) ih
    exact mem_consequentsOf.2 ⟨argument', by simp, hmem⟩
  | group _ ih | operand _ ih | value _ ih => exact ih
  | object _ ih | left _ ih | condition _ ih | conditionElse _ ih =>
    exact hmono (List.subset_append_left _ _) ih
  | offset _ ih | right _ ih => exact hmono (List.subset_append_right _ _) ih
  | consequent _ ih | consequentElse _ ih =>
    exact hmono (List.subset_append_of_subset_right _ (List.subset_append_left _ _)) ih
  | alternative _ ih =>
    exact hmono (List.subset_append_of_subset_right _ (List.subset_append_right _ _)) ih

mutual

/-- The number of terminals that stand between a `then` and its `else`, over all conditionals of a
    phrase. -/
def spanned : Phrase → Nat
  | number _ | text _ | truth _ | price _ | name _ => 0
  | call _ arguments => spannedOf arguments
  | group inner => inner.spanned
  | past object offset => object.spanned + offset.spanned
  | unary _ operand => operand.spanned
  | binary _ left right => left.spanned + right.spanned
  | assign _ value => value.spanned
  | ifThen condition consequent => condition.spanned + consequent.spanned
  | ifThenElse condition consequent alternative =>
    condition.spanned + consequent.spanned + alternative.spanned + consequent.terminals.length

/-- The same over several phrases. -/
def spannedOf : List Phrase → Nat
  | [] => 0
  | phrase :: rest => phrase.spanned + spannedOf rest

end

/-- With an `else` of its own an open phrase spans fewer terminals than an `else` behind the whole
    phrase would. -/
theorem spanned_withElse_lt {phrase : Phrase} (alternative : Phrase) (hopen : phrase.isOpen = true) :
    (phrase.withElse alternative).spanned <
      phrase.spanned + alternative.spanned + phrase.terminals.length := by
  fun_induction withElse phrase alternative with
  | case1 =>
    simp [spanned, terminals]
    omega
  | case2 _ _ _ _ ih =>
    have hotherwise := ih hopen
    simp [spanned, terminals]
    omega
  | case3 _ _ _ ih =>
    have hvalue := ih hopen
    simp [spanned, terminals]
    omega
  | case4 phrase => cases phrase <;> simp_all [isOpen]

theorem spannedOf_append (before after : List Phrase) :
    spannedOf (before ++ after) = spannedOf before + spannedOf after := by
  induction before with
  | nil => simp [spannedOf]
  | cons phrase before ih => simp [spannedOf, ih, Nat.add_assoc]

/-- A move brings an `else` nearer to its `if`. -/
theorem Moved.spanned_lt {phrase phrase' : Phrase} (hmoved : Moved phrase phrase') :
    phrase'.spanned < phrase.spanned := by
  induction hmoved with
  | @here condition consequent alternative hopen =>
    have hconsequent := spanned_withElse_lt alternative hopen
    simp only [spanned]
    omega
  | argument _ ih => simp [spanned, spannedOf_append, spannedOf, ih]
  | consequentElse hconsequent ih =>
    simp only [spanned, hconsequent.terminals_eq]
    omega
  | _ =>
    simp only [spanned]
    omega

end Phrase

open Phrase

namespace Derives

variable {category : Category} {phrase : Phrase}

/-- An open phrase that is given an `else` is still derived, as an expression. -/
theorem withElse {alternative : Phrase} (hderives : Derives category phrase)
    (hopen : phrase.isOpen = true) (halternative : Derives .expression alternative) :
    Derives .expression (phrase.withElse alternative) := by
  induction hderives with
  | assign _ ih => exact .assign (ih hopen)
  | ifThen hcondition hconsequent => exact .ifThenElse hcondition hconsequent halternative
  | ifThenElse hcondition hconsequent _ _ _ ih =>
    exact .ifThenElse hcondition hconsequent (ih hopen)
  | tighter _ _ ih => exact ih hopen
  | _ => cases hopen

/-- A phrase that could spare an `else` is one without it, and the alternative behind that `else`. -/
theorem exists_withElse_eq (hderives : Derives category phrase)
    (hspares : phrase.sparesElse = true) :
    ∃ shorter alternative, shorter.isOpen = true ∧ shorter.withElse alternative = phrase ∧
      Derives .expression shorter ∧ Derives .expression alternative := by
  induction hderives with
  | @assign target _ _ ih =>
    obtain ⟨shorter, alternative, hopen, rfl, hshorter, halternative⟩ := ih hspares
    exact ⟨.assign target shorter, alternative, hopen, rfl, .assign hshorter, halternative⟩
  | @ifThenElse condition consequent alternative hcondition hconsequent halternative =>
    exact ⟨.ifThen condition consequent, alternative, rfl, rfl, .ifThen hcondition hconsequent,
      halternative⟩
  | tighter _ _ ih => exact ih hspares
  | _ => cases hspares

/-- The phrases of a list are still derived if one of them is replaced by a derived one. -/
theorem replaced {before after : List Phrase} {argument argument' : Phrase}
    (harguments : ∀ part ∈ before ++ argument :: after, Derives .expression part)
    (hargument' : Derives .expression argument') :
    ∀ part ∈ before ++ argument' :: after, Derives .expression part := by
  simp only [List.forall_mem_append, List.forall_mem_cons] at harguments ⊢
  exact ⟨harguments.1, hargument', harguments.2.2⟩

/-- Where an `else` is not at the nearest `if`, it can be moved to a nearer one. -/
theorem exists_moved (hderives : Derives category phrase) (hfar : ¬ phrase.ElseNearest) :
    ∃ phrase', Moved phrase phrase' ∧ Derives category phrase' := by
  induction hderives with
  | number | text | truth | price | name => exact absurd trivial hfar
  | call harguments ih =>
    rw [ElseNearest, eachElseNearest_iff] at hfar
    simp only [not_forall] at hfar
    obtain ⟨argument, hmem, hargument⟩ := hfar
    obtain ⟨argument', hmoved, hderives⟩ := ih argument hmem hargument
    obtain ⟨before, after, rfl⟩ := List.append_of_mem hmem
    exact ⟨_, .argument hmoved, .call (replaced harguments hderives)⟩
  | group _ ih =>
    obtain ⟨inner', hmoved, hinner⟩ := ih hfar
    exact ⟨_, .group hmoved, .group hinner⟩
  | past hobject hoffset ihobject ihoffset =>
    rcases not_and_or.1 hfar with hfar | hfar
    · obtain ⟨object', hmoved, hobject'⟩ := ihobject hfar
      exact ⟨_, .object hmoved, .past hobject' hoffset⟩
    · obtain ⟨offset', hmoved, hoffset'⟩ := ihoffset hfar
      exact ⟨_, .offset hmoved, .past hobject hoffset'⟩
  | unary _ ih =>
    obtain ⟨operand', hmoved, hoperand⟩ := ih hfar
    exact ⟨_, .operand hmoved, .unary hoperand⟩
  | power hbase hexponent ihbase ihexponent =>
    rcases not_and_or.1 hfar with hfar | hfar
    · obtain ⟨base', hmoved, hbase'⟩ := ihbase hfar
      exact ⟨_, .left hmoved, .power hbase' hexponent⟩
    · obtain ⟨exponent', hmoved, hexponent'⟩ := ihexponent hfar
      exact ⟨_, .right hmoved, .power hbase hexponent'⟩
  | joined hoperator hchain hleft hright ihleft ihright =>
    rcases not_and_or.1 hfar with hfar | hfar
    · obtain ⟨left', hmoved, hleft'⟩ := ihleft hfar
      exact ⟨_, .left hmoved, .joined hoperator hchain hleft' hright⟩
    · obtain ⟨right', hmoved, hright'⟩ := ihright hfar
      exact ⟨_, .right hmoved, .joined hoperator hchain hleft hright'⟩
  | assign _ ih =>
    obtain ⟨value', hmoved, hvalue⟩ := ih hfar
    exact ⟨_, .value hmoved, .assign hvalue⟩
  | ifThen hcondition hconsequent ihcondition ihconsequent =>
    rcases not_and_or.1 hfar with hfar | hfar
    · obtain ⟨condition', hmoved, hcondition'⟩ := ihcondition hfar
      exact ⟨_, .condition hmoved, .ifThen hcondition' hconsequent⟩
    · obtain ⟨consequent', hmoved, hconsequent'⟩ := ihconsequent hfar
      exact ⟨_, .consequent hmoved, .ifThen hcondition hconsequent'⟩
  | @ifThenElse condition consequent alternative hcondition hconsequent halternative ihcondition
      ihconsequent ihalternative =>
    by_cases hopen : consequent.isOpen = true
    · exact ⟨_, .here hopen, .ifThen hcondition (hconsequent.withElse hopen halternative)⟩
    rw [ElseNearest, Bool.eq_false_iff.2 hopen, eq_self, true_and] at hfar
    rcases not_and_or.1 hfar with hfar | hfar
    · obtain ⟨condition', hmoved, hcondition'⟩ := ihcondition hfar
      exact ⟨_, .conditionElse hmoved, .ifThenElse hcondition' hconsequent halternative⟩
    rcases not_and_or.1 hfar with hfar | hfar
    · obtain ⟨consequent', hmoved, hconsequent'⟩ := ihconsequent hfar
      exact ⟨_, .consequentElse hmoved, .ifThenElse hcondition hconsequent' halternative⟩
    · obtain ⟨alternative', hmoved, halternative'⟩ := ihalternative hfar
      exact ⟨_, .alternative hmoved, .ifThenElse hcondition hconsequent halternative'⟩
  | tighter hprimary _ ih =>
    obtain ⟨phrase', hmoved, hphrase'⟩ := ih hfar
    exact ⟨_, hmoved, .tighter hprimary hphrase'⟩

/-- Where a consequent could spare an `else`, this one can have been moved there. -/
theorem exists_moved_to (hderives : Derives category phrase)
    (hspares : ∃ consequent ∈ phrase.consequents, consequent.sparesElse = true) :
    ∃ phrase', Moved phrase' phrase ∧ Derives category phrase' := by
  obtain ⟨spare, hmem, hspares⟩ := hspares
  induction hderives with
  | number | text | truth | price | name => exact absurd hmem List.not_mem_nil
  | call harguments ih =>
    obtain ⟨argument, hargument, hmem⟩ := mem_consequentsOf.1 hmem
    obtain ⟨argument', hmoved, hderives⟩ := ih argument hargument hmem
    obtain ⟨before, after, rfl⟩ := List.append_of_mem hargument
    exact ⟨_, .argument hmoved, .call (replaced harguments hderives)⟩
  | group _ ih =>
    obtain ⟨inner', hmoved, hinner⟩ := ih hmem
    exact ⟨_, .group hmoved, .group hinner⟩
  | past hobject hoffset ihobject ihoffset =>
    rcases List.mem_append.1 hmem with hmem | hmem
    · obtain ⟨object', hmoved, hobject'⟩ := ihobject hmem
      exact ⟨_, .object hmoved, .past hobject' hoffset⟩
    · obtain ⟨offset', hmoved, hoffset'⟩ := ihoffset hmem
      exact ⟨_, .offset hmoved, .past hobject hoffset'⟩
  | unary _ ih =>
    obtain ⟨operand', hmoved, hoperand⟩ := ih hmem
    exact ⟨_, .operand hmoved, .unary hoperand⟩
  | power hbase hexponent ihbase ihexponent =>
    rcases List.mem_append.1 hmem with hmem | hmem
    · obtain ⟨base', hmoved, hbase'⟩ := ihbase hmem
      exact ⟨_, .left hmoved, .power hbase' hexponent⟩
    · obtain ⟨exponent', hmoved, hexponent'⟩ := ihexponent hmem
      exact ⟨_, .right hmoved, .power hbase hexponent'⟩
  | joined hoperator hchain hleft hright ihleft ihright =>
    rcases List.mem_append.1 hmem with hmem | hmem
    · obtain ⟨left', hmoved, hleft'⟩ := ihleft hmem
      exact ⟨_, .left hmoved, .joined hoperator hchain hleft' hright⟩
    · obtain ⟨right', hmoved, hright'⟩ := ihright hmem
      exact ⟨_, .right hmoved, .joined hoperator hchain hleft hright'⟩
  | assign _ ih =>
    obtain ⟨value', hmoved, hvalue⟩ := ih hmem
    exact ⟨_, .value hmoved, .assign hvalue⟩
  | @ifThen condition consequent hcondition hconsequent ihcondition ihconsequent =>
    simp only [consequents, List.mem_append, List.mem_singleton] at hmem
    rcases hmem with hmem | hmem | rfl
    · obtain ⟨condition', hmoved, hcondition'⟩ := ihcondition hmem
      exact ⟨_, .condition hmoved, .ifThen hcondition' hconsequent⟩
    · obtain ⟨consequent', hmoved, hconsequent'⟩ := ihconsequent hmem
      exact ⟨_, .consequent hmoved, .ifThen hcondition hconsequent'⟩
    · obtain ⟨shorter, alternative, hopen, rfl, hshorter, halternative⟩ :=
        hconsequent.exists_withElse_eq hspares
      exact ⟨_, .here hopen, .ifThenElse hcondition hshorter halternative⟩
  | ifThenElse hcondition hconsequent halternative ihcondition ihconsequent ihalternative =>
    simp only [consequents, List.mem_append] at hmem
    rcases hmem with hmem | hmem | hmem
    · obtain ⟨condition', hmoved, hcondition'⟩ := ihcondition hmem
      exact ⟨_, .conditionElse hmoved, .ifThenElse hcondition' hconsequent halternative⟩
    · obtain ⟨consequent', hmoved, hconsequent'⟩ := ihconsequent hmem
      exact ⟨_, .consequentElse hmoved, .ifThenElse hcondition hconsequent' halternative⟩
    · obtain ⟨alternative', hmoved, halternative'⟩ := ihalternative hmem
      exact ⟨_, .alternative hmoved, .ifThenElse hcondition hconsequent halternative'⟩
  | tighter hprimary _ ih =>
    obtain ⟨phrase', hmoved, hphrase'⟩ := ih hmem
    exact ⟨_, hmoved, .tighter hprimary hphrase'⟩

end Derives

end Candlewick.Grammar
