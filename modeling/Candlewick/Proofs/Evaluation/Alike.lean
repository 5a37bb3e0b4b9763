import Candlewick.Evaluation

namespace Candlewick

/-- Two series have the same candles up to an index. -/
def Series.SameUpTo (last : Nat) (first second : Series) : Prop :=
  ∀ index ≤ last, first.get? index = second.get? index

/-- Series that agree up to an index have the same history at every index up to there. -/
theorem Series.SameUpTo.history_eq {last index : Nat} {first second : Series}
    (hsame : first.SameUpTo last second) (hindex : index ≤ last) :
    first.history index = second.history index := by
  apply List.ext_getElem?
  intro place
  by_cases hplace : place < index + 1
  · rw [Series.history, Series.history, List.getElem?_take_of_lt hplace,
      List.getElem?_take_of_lt hplace]
    exact hsame place (by omega)
  · rw [Series.history, Series.history, List.getElem?_take_eq_none (by omega),
      List.getElem?_take_eq_none (by omega)]

/-- Two moments give the same value, or none, to each of some names. -/
def Moment.AgreeOn (names : String → Prop) (first second : Moment) : Prop :=
  ∀ name, names name → first.bindings.get? name = second.bindings.get? name

/-- What two evaluations side by side may have done to the moments they started in. Both are back at
    their index, and each name has been given one value by both, if it may be assigned at all, or is
    left by both as it was. -/
structure Moment.Moved (assigned : String → Prop) (first second first' second' : Moment) :
    Prop where
  index_first : first'.index = first.index
  index_second : second'.index = second.index
  binding : ∀ name,
    (assigned name ∧ ∃ value,
      first'.bindings.get? name = some value ∧ second'.bindings.get? name = some value) ∨
    (first'.bindings.get? name = first.bindings.get? name ∧
      second'.bindings.get? name = second.bindings.get? name)

namespace Moment.Moved

variable {assigned names : String → Prop} {first second first' second' first'' second'' : Moment}

theorem refl (first second : Moment) : Moved assigned first second first second :=
  ⟨rfl, rfl, fun _ => .inr ⟨rfl, rfl⟩⟩

theorem trans (hone : Moved assigned first second first' second')
    (htwo : Moved assigned first' second' first'' second'') :
    Moved assigned first second first'' second'' := by
  refine ⟨htwo.index_first.trans hone.index_first, htwo.index_second.trans hone.index_second, ?_⟩
  intro name
  rcases htwo.binding name with hbound | ⟨hfirst, hsecond⟩
  · exact .inl hbound
  · rw [hfirst, hsecond]
    exact hone.binding name

/-- Names with the same value in both moments keep that property, whatever is assigned. -/
theorem agreeOn (hmoved : Moved assigned first second first' second')
    (hagree : first.AgreeOn names second) : first'.AgreeOn names second' := by
  intro name hname
  rcases hmoved.binding name with ⟨_, value, hfirst, hsecond⟩ | ⟨hfirst, hsecond⟩
  · rw [hfirst, hsecond]
  · rw [hfirst, hsecond, hagree name hname]

end Moment.Moved

namespace Evaluation

variable {α β : Type} {read assigned : String → Prop} {last : Nat}

/-- Two evaluations have the same outcome, and do the same to their moments, wherever they start at
    the same index, not behind `last`, and agree on the names that may be read. -/
def Alike (read assigned : String → Prop) (last : Nat) (one other : Evaluation α) : Prop :=
  ∀ first second : Moment, first.index = second.index → first.index ≤ last →
    first.AgreeOn read second →
    (one.outcome first).1 = (other.outcome second).1 ∧
      Moment.Moved assigned first second (one.outcome first).2 (other.outcome second).2

/-- An evaluation followed by another one ends with the first fault, or where the second ends. -/
theorem outcome_bind (evaluation : Evaluation α) (next : α → Evaluation β) (start : Moment) :
    (evaluation >>= next).outcome start =
      match evaluation.outcome start with
      | (.ok value, later) => (next value).outcome later
      | (.error fault, later) => (.error fault, later) := by
  simp only [outcome, Bind.bind, EStateM.bind]
  cases evaluation start <;> rfl

/-- A name that has no value is a fault, and a look at a variable changes nothing. -/
theorem outcome_lookup (name : String) (moment : Moment) :
    (lookup name).outcome moment =
      ((moment.bindings.get? name).elim (.error (.undefinedVariable name)) .ok, moment) := by
  have hget : (get : Evaluation Moment).outcome moment = (.ok moment, moment) := rfl
  simp only [lookup, outcome_bind, hget]
  cases moment.bindings.get? name with
  | none => rfl
  | some value => rfl

/-- An evaluation at another index has the outcome it has there, and the index is the old one again. -/
theorem outcome_atIndex (index : Nat) (evaluation : Evaluation α) (moment : Moment) :
    (atIndex index evaluation).outcome moment =
      ((evaluation.outcome { moment with index := index }).1,
        { (evaluation.outcome { moment with index := index }).2 with index := moment.index }) := by
  simp only [atIndex, outcome]
  cases evaluation { moment with index := index } <;> rfl

namespace Alike

theorem pure (value : α) : Alike read assigned last (Pure.pure value) (Pure.pure value) :=
  fun first second _ _ _ => ⟨rfl, .refl first second⟩

theorem throw (fault : EvalFault) :
    Alike read assigned last (throw fault : Evaluation α) (MonadExcept.throw fault) :=
  fun first second _ _ _ => ⟨rfl, .refl first second⟩

theorem settle (outcome : Except EvalFault α) :
    Alike read assigned last (settle outcome) (Evaluation.settle outcome) := by
  cases outcome with
  | ok value => exact .pure value
  | error fault => exact .throw fault

/-- In sequence, evaluations that are alike stay alike. -/
theorem bind {one other : Evaluation α} {next next' : α → Evaluation β}
    (hfirst : Alike read assigned last one other)
    (hnext : ∀ value, Alike read assigned last (next value) (next' value)) :
    Alike read assigned last (one >>= next) (other >>= next') := by
  intro first second hindex hlast hagree
  obtain ⟨houtcome, hmoved⟩ := hfirst first second hindex hlast hagree
  rw [outcome_bind, outcome_bind]
  revert houtcome hmoved
  rcases one.outcome first with ⟨_ | value, first'⟩ <;>
    rcases other.outcome second with ⟨_ | value', second'⟩ <;>
    intro houtcome hmoved <;>
    simp only [reduceCtorEq, Except.error.injEq, Except.ok.injEq] at houtcome
  · subst houtcome
    exact ⟨rfl, hmoved⟩
  · subst houtcome
    have hindex' : first'.index = second'.index := by
      rw [hmoved.index_first, hmoved.index_second, hindex]
    have hlast' : first'.index ≤ last := by rw [hmoved.index_first]; exact hlast
    obtain ⟨houtcome', hmoved'⟩ :=
      hnext value first' second' hindex' hlast' (hmoved.agreeOn hagree)
    exact ⟨houtcome', hmoved.trans hmoved'⟩

/-- What follows the look at the index may depend on it, within the bound. -/
theorem bind_index {next next' : Nat → Evaluation β}
    (hnext : ∀ index ≤ last, Alike read assigned last (next index) (next' index)) :
    Alike read assigned last (index >>= next) (index >>= next') := by
  intro first second hindex hlast hagree
  have hsecond : (index >>= next').outcome second = (next' first.index).outcome second := by
    rw [hindex]
    rfl
  rw [hsecond]
  exact hnext first.index hlast first second hindex hlast hagree

/-- A variable that both runs hold alike is looked up alike. -/
theorem lookup {name : String} (hread : read name) :
    Alike read assigned last (lookup name) (Evaluation.lookup name) := by
  intro first second _ _ hagree
  rw [outcome_lookup, outcome_lookup, hagree name hread]
  exact ⟨rfl, .refl first second⟩

/-- An assignment of the same value moves both runs alike. -/
theorem assign {name : String} (value : Value) (hassigned : assigned name) :
    Alike read assigned last (Evaluation.bind name value) (Evaluation.bind name value) := by
  intro first second _ _ _
  refine ⟨rfl, rfl, rfl, ?_⟩
  intro other
  change (_ ∧ ∃ held, (first.bindings.put name value).get? other = some held ∧
    (second.bindings.put name value).get? other = some held) ∨
    ((first.bindings.put name value).get? other = _ ∧
      (second.bindings.put name value).get? other = _)
  rw [Keyed.get?_put, Keyed.get?_put]
  by_cases hname : other = name
  · subst hname
    exact .inl ⟨hassigned, value, if_pos rfl, if_pos rfl⟩
  · exact .inr ⟨if_neg hname, if_neg hname⟩

/-- At an index within the bound two evaluations are as alike as they are at the present one. -/
theorem atIndex {index : Nat} {one other : Evaluation α} (hindex : index ≤ last)
    (hone : Alike read assigned last one other) :
    Alike read assigned last (atIndex index one) (Evaluation.atIndex index other) := by
  intro first second _ _ hagree
  obtain ⟨houtcome, hmoved⟩ := hone { first with index := index } { second with index := index }
    rfl hindex hagree
  rw [outcome_atIndex, outcome_atIndex]
  exact ⟨houtcome, rfl, rfl, hmoved.binding⟩

variable {series series' : Series}

/-- Up to the last index both series have the same present candle. -/
theorem candle (hsame : series.SameUpTo last series') :
    Alike read assigned last (candle series) (Evaluation.candle series') := by
  apply bind_index
  intro index hindex
  rw [hsame index hindex]
  cases series'.get? index with
  | some candle => exact .pure candle
  | none => exact .throw _

theorem history (hsame : series.SameUpTo last series') :
    Alike read assigned last (history series) (Evaluation.history series') := by
  apply bind (candle hsame)
  intro _
  apply bind_index
  intro index hindex
  rw [hsame.history_eq hindex]
  exact .pure _

end Alike

end Evaluation

end Candlewick
