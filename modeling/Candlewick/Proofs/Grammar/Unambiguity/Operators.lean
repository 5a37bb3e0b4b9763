import Candlewick.Proofs.Grammar.Unambiguity.Primary

namespace Candlewick.Grammar

/-- An operator in front of an operand is known by what it is written with. -/
theorem unaryTerminal_injective {operator operator' : UnaryOperator}
    (heq : unaryTerminal operator = unaryTerminal operator') : operator = operator' := by
  cases operator <;> cases operator' <;> first | rfl | cases heq

/-- An operator between two operands is known by what it is written with. -/
theorem binaryTerminal_injective {operator operator' : BinaryOperator}
    (heq : binaryTerminal operator = binaryTerminal operator') : operator = operator' := by
  cases operator <;> cases operator' <;> first | rfl | cases heq

theorem opening_unaryTerminal (operator : UnaryOperator) :
    opening (unaryTerminal operator).kind < Category.indexed.rank := by
  cases operator <;> decide

/-- An operator in front of an operand is determined if the operand is. -/
theorem unique_unary {operator : UnaryOperator} {operand : Phrase}
    (hunique : Unique .unary operand) : Unique .unary (.unary operator operand) := by
  refine ⟨.unary hunique.derives, fun other rest rest' hother hstops hstops' heq => ?_⟩
  obtain ⟨operator', operand', rfl, hoperand'⟩ | hindexed := hother.unary_cases
  · obtain ⟨hoperator, hoperands⟩ := List.cons.inj heq
    obtain ⟨rfl, hrest⟩ := hunique.only hoperand'
      (hunique.derives.stops hstops.elseNearest (by decide) hstops.ends)
      (hoperand'.stops hstops'.elseNearest (by decide) hstops'.ends) hoperands
    exact ⟨by rw [unaryTerminal_injective hoperator], hrest⟩
  · have hkind := hindexed.first_kind_ne (opening_unaryTerminal operator) rest'
    rw [← heq] at hkind
    exact absurd rfl hkind

/-- An operand without an operator in front. -/
theorem Unique.unary {phrase : Phrase} (hunique : Unique .indexed phrase) :
    Unique .unary phrase := by
  refine ⟨.tighter (by simp) hunique.derives, fun other rest rest' hother hstops hstops' heq => ?_⟩
  obtain ⟨operator, operand, rfl, hoperand⟩ | hindexed := hother.unary_cases
  · have hkind := hunique.derives.first_kind_ne (opening_unaryTerminal operator) rest
    rw [heq] at hkind
    exact absurd rfl hkind
  · exact hunique.only hindexed (hstops.tighter (by simp)) (hstops'.tighter (by simp)) heq

/-- A caret behind an operand takes a power further. -/
theorem not_ends_caret (rest : List Terminal) : ¬ Ends .power (binaryTerminal .pow :: rest) := by
  simp [Ends, reach, Category.rank, binaryTerminal]

/-- A power is determined if its base and its exponent are. -/
theorem unique_power {base exponent : Phrase} (hbase : Unique .unary base)
    (hexponent : Unique .power exponent) : Unique .power (.binary .pow base exponent) := by
  refine ⟨.power hbase.derives hexponent.derives,
    fun other rest rest' hother hstops hstops' heq => ?_⟩
  have hbaseStops : Stops .unary base (binaryTerminal .pow :: (exponent.terminals ++ rest)) :=
    stops_cons hstops.elseNearest.1 (by decide) (by simp [binaryTerminal]) _
  rw [Phrase.terminals, List.append_assoc, List.cons_append] at heq
  obtain ⟨base', exponent', rfl, hbase', hexponent'⟩ | hunary := hother.power_cases
  · have hbaseStops' : Stops .unary base' (binaryTerminal .pow :: (exponent'.terminals ++ rest')) :=
      stops_cons hstops'.elseNearest.1 (by decide) (by simp [binaryTerminal]) _
    rw [Phrase.terminals, List.append_assoc, List.cons_append] at heq
    obtain ⟨rfl, hcaret⟩ := hbase.only hbase' hbaseStops hbaseStops' heq
    obtain ⟨rfl, hrest⟩ := hexponent.only hexponent'
      (hexponent.derives.stops hstops.elseNearest.2 (by decide) hstops.ends)
      (hexponent'.stops hstops'.elseNearest.2 (by decide) hstops'.ends) (List.cons.inj hcaret).2
    exact ⟨rfl, hrest⟩
  · obtain ⟨-, hcaret⟩ := hbase.only hunary hbaseStops (hstops'.tighter (by simp)) heq
    rw [← hcaret] at hstops'
    exact absurd hstops'.ends (not_ends_caret _)

/-- A base without an exponent. -/
theorem Unique.power {phrase : Phrase} (hunique : Unique .unary phrase) : Unique .power phrase := by
  refine ⟨.tighter (by simp) hunique.derives, fun other rest rest' hother hstops hstops' heq => ?_⟩
  obtain ⟨base', exponent', rfl, hbase', hexponent'⟩ | hunary := hother.power_cases
  · have hbaseStops' : Stops .unary base' (binaryTerminal .pow :: (exponent'.terminals ++ rest')) :=
      stops_cons hstops'.elseNearest.1 (by decide) (by simp [binaryTerminal]) _
    rw [Phrase.terminals, List.append_assoc, List.cons_append] at heq
    obtain ⟨-, hcaret⟩ := hunique.only hbase' (hstops.tighter (by simp)) hbaseStops' heq
    rw [hcaret] at hstops
    exact absurd hstops.ends (not_ends_caret _)
  · exact hunique.only hunary (hstops.tighter (by simp)) (hstops'.tighter (by simp)) heq

/-- The terminals of links that take a phrase further, and what comes behind them. -/
theorem ends_links {holds : Category → Phrase → Prop} {category : Category} {links : List Link}
    {rest : List Terminal} (hleft : category.GroupsLeft)
    (hlinks : ∀ link ∈ links, link.Of holds category) (hends : Ends category rest) :
    Ends category.tighter (links.flatMap Link.terminals ++ rest) := by
  cases links with
  | nil =>
    refine hends.tighter ?_
    rintro rfl
    exact absurd hleft (by decide)
  | cons link links =>
    have hlink := (List.forall_mem_cons.1 hlinks).1
    cases link with
    | join operator operand =>
      obtain ⟨rfl, hpower, -⟩ := hlink
      have hchain := Category.isChain_of_operatorCategory rfl hpower
      apply ends_binaryTerminal
      rw [Category.rank_tighter (Category.ne_primary_of_isChain hchain)]
      exact Nat.lt_succ_self _
    | index offset =>
      obtain ⟨rfl, -⟩ := hlink
      exact ends_cons (by decide) _

/-- A link takes a phrase of its category further, so the phrase does not end in front of it. -/
theorem not_ends_link {holds : Category → Phrase → Prop} {category : Category} {link : Link}
    (hlink : link.Of holds category) (rest : List Terminal) :
    ¬ Ends category (link.terminals ++ rest) := by
  intro hends
  cases link with
  | join operator operand =>
    obtain ⟨rfl, -⟩ := hlink
    rw [Ends, Link.terminals, List.cons_append, first_cons, reach_binaryTerminal] at hends
    exact absurd hends (Nat.lt_irrefl _)
  | index offset =>
    obtain ⟨rfl, -⟩ := hlink
    exact absurd hends (by simp [Ends, reach, Category.rank, Link.terminals])

/-- A link is determined by what it begins. -/
theorem link_unique {category : Category} {link link' : Link} {rest rest' : List Terminal}
    (hlink : link.Of Unique category) (helse : link.part.ElseNearest)
    (hends : Ends category.tighter rest) (hlink' : link'.Of Derives category)
    (helse' : link'.part.ElseNearest) (hends' : Ends category.tighter rest')
    (heq : link.terminals ++ rest = link'.terminals ++ rest') : link = link' ∧ rest = rest' := by
  cases link with
  | join operator operand =>
    obtain ⟨hoperator, hpower, hoperand⟩ := hlink
    have hchain := Category.isChain_of_operatorCategory hoperator hpower
    have hrank : 2 ≤ category.tighter.rank := by
      rw [Category.rank_tighter (Category.ne_primary_of_isChain hchain)]
      have hlower := hchain.1
      omega
    cases link' with
    | join operator' operand' =>
      obtain ⟨-, -, hoperand'⟩ := hlink'
      obtain ⟨hterminal, hoperands⟩ := List.cons.inj heq
      obtain ⟨rfl, hrest⟩ := hoperand.only hoperand' (hoperand.derives.stops helse hrank hends)
        (hoperand'.stops helse' hrank hends') hoperands
      exact ⟨by rw [binaryTerminal_injective hterminal], hrest⟩
    | index offset' =>
      obtain ⟨rfl, -⟩ := hlink'
      exact absurd hchain (by decide)
  | index offset =>
    obtain ⟨rfl, hoffset⟩ := hlink
    cases link' with
    | join operator' operand' =>
      obtain ⟨hoperator', hpower', -⟩ := hlink'
      exact absurd (Category.isChain_of_operatorCategory hoperator' hpower') (by decide)
    | index offset' =>
      obtain ⟨-, hoffset'⟩ := hlink'
      simp only [Link.terminals, List.cons_append, List.append_assoc, List.nil_append,
        List.cons.injEq, true_and] at heq
      have hstops : Stops .expression offset (.sign .rightBracket :: rest) :=
        stops_cons helse (by decide) (by simp) rest
      have hstops' : Stops .expression offset' (.sign .rightBracket :: rest') :=
        stops_cons helse' (by decide) (by simp) rest'
      obtain ⟨rfl, hrest⟩ := hoffset.only hoffset' hstops hstops' heq
      exact ⟨rfl, (List.cons.inj hrest).2⟩

/-- The links behind a phrase are determined up to where its category ends. -/
theorem links_unique {category : Category} {links links' : List Link} {rest rest' : List Terminal}
    (hleft : category.GroupsLeft) (hlinks : ∀ link ∈ links, link.Of Unique category)
    (helse : ∀ link ∈ links, link.part.ElseNearest) (hends : Ends category rest)
    (hlinks' : ∀ link ∈ links', link.Of Derives category)
    (helse' : ∀ link ∈ links', link.part.ElseNearest) (hends' : Ends category rest')
    (heq : links.flatMap Link.terminals ++ rest = links'.flatMap Link.terminals ++ rest') :
    links = links' ∧ rest = rest' := by
  induction links generalizing links' with
  | nil =>
    cases links' with
    | nil => exact ⟨rfl, heq⟩
    | cons link' more' =>
      have hlink' := (List.forall_mem_cons.1 hlinks').1
      rw [List.flatMap_nil, List.nil_append, List.flatMap_cons, List.append_assoc] at heq
      rw [heq] at hends
      exact absurd hends (not_ends_link hlink' _)
  | cons link more ih =>
    obtain ⟨hlink, hmore⟩ := List.forall_mem_cons.1 hlinks
    obtain ⟨hlinkElse, hmoreElse⟩ := List.forall_mem_cons.1 helse
    rw [List.flatMap_cons, List.append_assoc] at heq
    cases links' with
    | nil =>
      rw [List.flatMap_nil, List.nil_append] at heq
      rw [← heq] at hends'
      exact absurd hends' (not_ends_link hlink _)
    | cons link' more' =>
      obtain ⟨hlink', hmore'⟩ := List.forall_mem_cons.1 hlinks'
      obtain ⟨hlinkElse', hmoreElse'⟩ := List.forall_mem_cons.1 helse'
      rw [List.flatMap_cons, List.append_assoc] at heq
      obtain ⟨rfl, hbehind⟩ := link_unique hlink hlinkElse (ends_links hleft hmore hends) hlink'
        hlinkElse' (ends_links hleft hmore' hends') heq
      obtain ⟨rfl, hrest⟩ := ih hmore hmoreElse hmore' hmoreElse' hbehind
      exact ⟨rfl, hrest⟩

/-- What groups to the left is determined link by link. -/
theorem unique_of_linked {category : Category} {phrase : Phrase}
    (hderives : Derives category phrase) (hleft : category.GroupsLeft)
    (hlinked : Linked Unique category phrase) : Unique category phrase := by
  refine ⟨hderives, fun other rest rest' hother hstops hstops' heq => ?_⟩
  obtain ⟨head, links, rfl, hhead, hlinks⟩ := hlinked
  obtain ⟨head', links', rfl, hhead', hlinks'⟩ := hother.linked hleft
  obtain ⟨hheadElse, hlinksElse⟩ := elseNearest_foldl_onto.1 hstops.elseNearest
  obtain ⟨hheadElse', hlinksElse'⟩ := elseNearest_foldl_onto.1 hstops'.elseNearest
  have hrank : 2 ≤ category.tighter.rank := by cases category <;> decide
  rw [terminals_foldl_onto, terminals_foldl_onto, List.append_assoc, List.append_assoc] at heq
  obtain ⟨rfl, hbehind⟩ := hhead.only hhead'
    (hhead.derives.stops hheadElse hrank (ends_links hleft hlinks hstops.ends))
    (hhead'.stops hheadElse' hrank (ends_links hleft hlinks' hstops'.ends)) heq
  obtain ⟨rfl, hrest⟩ := links_unique hleft hlinks hlinksElse hstops.ends hlinks' hlinksElse'
    hstops'.ends hbehind
  exact ⟨rfl, hrest⟩

end Candlewick.Grammar
