import Candlewick.Proofs.Grammar.Beginnings
import Candlewick.Proofs.Grammar.Places
import Candlewick.Proofs.Grammar.Soundness.Primary

namespace Candlewick.Grammar

variable {α : Type} {tokens : List Token} {s middle : State} {e : ParseError}
  {front : List Terminal} {holds holds' : List Terminal → Prop}

/-- An error at one of some tokens. Of the terminals between a state and this token something
    holds. -/
def Blames (tokens : List Token) (s : State) (holds : List Terminal → Prop) (e : ParseError) :
    Prop :=
  ∃ front later, Inside tokens later ∧ s.terminals = front ++ later.terminals ∧
    e.place = later.ahead.place ∧ holds front

namespace Blames

/-- An error at the token ahead. -/
theorem here (hs : Inside tokens s) (hholds : holds []) (fault : ParseFault) :
    Blames tokens s holds ⟨fault, s.ahead.place⟩ :=
  ⟨[], s, hs, rfl, rfl, hholds⟩

/-- An error at the token ahead in a later state. -/
theorem later (hterminals : s.terminals = front ++ middle.terminals) (hmiddle : Inside tokens middle)
    (hholds : holds front) (fault : ParseFault) :
    Blames tokens s holds ⟨fault, middle.ahead.place⟩ :=
  ⟨front, middle, hmiddle, hterminals, rfl, hholds⟩

/-- What holds of the terminals in front of a blamed token may be weakened. -/
theorem imp (hblames : Blames tokens s holds e) (himp : ∀ front, holds front → holds' front) :
    Blames tokens s holds' e := by
  obtain ⟨front, later, hlater, hterminals, hplace, hholds⟩ := hblames
  exact ⟨front, later, hlater, hterminals, hplace, himp front hholds⟩

/-- What a later state blames is blamed by an earlier one, with what stands between them in front. -/
theorem behind (hblames : Blames tokens middle holds e)
    (hterminals : s.terminals = front ++ middle.terminals)
    (himp : ∀ part, holds part → holds' (front ++ part)) : Blames tokens s holds' e := by
  obtain ⟨part, later, hlater, hpart, hplace, hholds⟩ := hblames
  refine ⟨front ++ part, later, hlater, ?_, hplace, himp part hholds⟩
  rw [hterminals, hpart, List.append_assoc]

end Blames

section

variable {reader : Reader α} {arrived : α → State → Prop}

/-- What is read from here on is a part of what has to be read. -/
theorem Leads.blamed (hleads : Leads (Blames tokens s holds) reader middle arrived)
    (himp : ∀ part, holds part → holds' part) :
    Leads (Blames tokens s holds') reader middle arrived :=
  hleads.mono (fun _ hblames => hblames.imp himp) fun _ _ h => h

/-- It is a part of it, and something has been read in front of it. -/
theorem Leads.blamedBehind (hleads : Leads (Blames tokens middle holds) reader middle arrived)
    (hterminals : s.terminals = front ++ middle.terminals)
    (himp : ∀ part, holds part → holds' (front ++ part)) :
    Leads (Blames tokens s holds') reader middle arrived :=
  hleads.mono (fun _ hblames => hblames.behind hterminals himp) fun _ _ h => h

end

/-- A reader of phrases of a category that blames no token behind the first one that does not fit. -/
structure Precise (tokens : List Token) (category : Category) (reader : Reader Node) : Prop where
  sound : Sound category reader
  stays : Stays tokens reader
  blames : ∀ s, Inside tokens s →
    Leads (Blames tokens s (Begins category)) reader s fun _ _ => True

/-- A precise reader blames a token behind the beginning of a phrase, or finds a phrase. -/
theorem Precise.leads {category : Category} {reader : Reader Node}
    (hreader : Precise tokens category reader) (hs : Inside tokens s) :
    Leads (Blames tokens s (Begins category)) reader s fun node later =>
      Inside tokens later ∧ ∃ phrase, Found category s later phrase ∧ phrase.node = node := by
  apply (((hreader.blames s hs).and (hreader.stays s hs)).and (hreader.sound s)).mono fun _ h => h
  rintro node later ⟨⟨-, hlater⟩, hfound⟩
  exact ⟨hlater, hfound⟩

theorem Precise.nested {category : Category} {reader : Reader Node}
    (hreader : Precise tokens category reader) (limits : Limits) :
    Precise tokens category (nested limits reader) := by
  refine ⟨hreader.sound.nested limits, .nested limits hreader.stays, fun s hs => ?_⟩
  rw [leads_nested]
  split
  · exact .here hs (.nil category) _
  · have hinner : Inside tokens { s with nesting := s.nesting + 1 } := ⟨hs.isSuffix, hs.ne_nil⟩
    exact (hreader.blames _ hinner).mono (fun _ h => h) fun _ _ h => h

/-- The readers of one level. -/
structure Deeper.Precise (tokens : List Token) (deeper : Deeper) : Prop where
  expression : Grammar.Precise tokens .expression deeper.expression
  power : Grammar.Precise tokens .power deeper.power
  unary : Grammar.Precise tokens .unary deeper.unary

theorem Deeper.Precise.stays {deeper : Deeper} (hdeeper : deeper.Precise tokens) :
    deeper.Stays tokens :=
  ⟨hdeeper.expression.stays, hdeeper.power.stays, hdeeper.unary.stays⟩

section

variable (hend : ∀ token ∈ tokens.getLast?, token.kind = .sourceEnd)
include hend

variable {limits : Limits} {deeper : Deeper} {expression : Reader Node}

/-- In front of a token that does not fit stands the beginning of some arguments. -/
theorem argumentsFrom_blames (hexpression : Precise tokens .expression expression) (fuel : Nat)
    {s : State} (hs : Inside tokens s) :
    Leads (Blames tokens s BeginsArguments) (argumentsFrom outOfRounds expression fuel) s fun _ _ => True := by
  induction fuel generalizing s with
  | zero => exact .here hs (.first (.nil _)) _
  | succ fuel ih =>
    simp only [argumentsFrom, leads_bind, leads_accept, leads_ite, if_true, Bool.false_eq_true,
      if_false, leads_expectSign, leads_pure]
    apply (hexpression.leads hs).mono fun _ he => he.imp fun _ => .first
    rintro node later ⟨hlater, phrase, hfound, rfl⟩
    have hphrase : phrase.IsExpression := ⟨hfound.derives, hfound.elseNearest⟩
    by_cases hcomma : (first later.terminals).kind = .punctuation .comma
    · rw [if_pos hcomma]
      have hterminals : s.terminals =
          (phrase.terminals ++ [.sign .comma]) ++ later.skipped.terminals := by
        rw [hfound.terminals, State.terminals_eq_sign hcomma]
        simp
      refine (ih (hlater.skipped hend (by simp [hcomma]))).blamedBehind hterminals fun part hpart => ?_
      rw [List.append_assoc]
      exact hpart.next hphrase
    · rw [if_neg hcomma]
      split
      · trivial
      · exact .later hfound.terminals hlater
          (.first (.whole hfound.derives hfound.elseNearest)) _

/-- The arguments behind a bracket that has been seen. -/
theorem arguments_blames (hdeeper : deeper.Precise tokens) {s : State} (hs : Inside tokens s)
    (hopen : (first s.terminals).kind = .punctuation .leftParen) (callee : Callee) :
    Leads (Blames tokens s fun part => Begins .primary (callee.terminal :: part)) (arguments deeper)
      s fun _ _ => True := by
  have hterminals : s.terminals = [.sign .leftParen] ++ s.skipped.terminals :=
    State.terminals_eq_sign hopen
  have hskipped := hs.skipped hend (by simp [hopen])
  simp only [arguments, leads_bind, leads_expectSign, leads_accept, leads_ite, if_true,
    Bool.false_eq_true, if_false, leads_pure, leads_remaining, if_pos hopen]
  split
  · trivial
  · exact (argumentsFrom_blames hend hdeeper.expression _ hskipped).blamedBehind hterminals
      fun _ => .call callee

/-- The reader of undivided expressions is precise if the readers one level deeper are. -/
theorem primary_precise (hdeeper : deeper.Precise tokens) :
    Precise tokens .primary (primary deeper) := by
  refine ⟨primary_sound hdeeper.expression.sound, primary_stays hend hdeeper.stays,
    fun s hs => ?_⟩
  simp only [primary, leads_bind, leads_peek, State.kind_ahead]
  split
  case h_6 builtin hkind =>
    have hterminals : s.terminals = [(Callee.function builtin s.ahead.lexeme).terminal] ++
        s.skipped.terminals := State.terminals_eq_function hkind
    have hskipped := hs.skipped hend (by simp [hkind])
    simp only [leads_bind, leads_skip, leads_peekKind, leads_ite, leads_unexpected, leads_pure]
    split
    · rename_i hopen
      exact (arguments_blames hend hdeeper hskipped hopen
        (.function builtin s.ahead.lexeme)).blamedBehind hterminals fun _ hpart => hpart
    · exact .later hterminals hskipped (.callee _) _
  case h_7 name hkind =>
    have hterminals : s.terminals = [(Callee.word name).terminal] ++ s.skipped.terminals :=
      State.terminals_eq_plain hkind (by simp) (by simp)
    have hskipped := hs.skipped hend (by simp [hkind])
    simp only [leads_bind, leads_skip, leads_peekKind, leads_ite, leads_pure]
    split
    · rename_i hopen
      exact (arguments_blames hend hdeeper hskipped hopen (.word name)).blamedBehind hterminals
        fun _ hpart => hpart
    · trivial
  case h_8 hkind =>
    have hterminals : s.terminals = [.sign .leftParen] ++ s.skipped.terminals :=
      State.terminals_eq_sign hkind
    have hskipped := hs.skipped hend (by simp [hkind])
    simp only [leads_bind, leads_skip, leads_expectSign, leads_pure]
    apply (hdeeper.expression.leads hskipped).mono
      fun e he => he.behind hterminals fun _ => .group
    rintro node later ⟨hlater, phrase, hfound, rfl⟩
    split
    · trivial
    · rw [hfound.terminals] at hterminals
      exact .later (hterminals.trans (List.append_assoc _ _ _).symm) hlater
        (.group (.whole hfound.derives hfound.elseNearest)) _
  case h_9 => exact .here hs (.nil _) _
  case h_10 => exact .here hs (.nil _) _
  all_goals trivial

end

end Candlewick.Grammar
