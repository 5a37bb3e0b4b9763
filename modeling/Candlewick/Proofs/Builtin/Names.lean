import Candlewick.Builtin
import Mathlib.Data.List.Basic
import Mathlib.Data.List.TakeWhile

namespace Candlewick

/-- How a function takes its arguments: a price field and a period, candles and a period, or some
    plain numbers. -/
inductive Signature where
  | sourcePeriod
  | candlePeriod
  | scalar (count : Nat)
deriving DecidableEq

/-- The number of arguments. -/
def Signature.arity : Signature → Nat
  | sourcePeriod | candlePeriod => 2
  | scalar count => count

namespace Builtin

def signature : Builtin → Signature
  | study _ => .sourcePeriod
  | averageRange => .candlePeriod
  | pairing _ => .scalar 2
  | abs => .scalar 1

/-- The number of arguments in the signature of a function is the one that its evaluation asks
    for. -/
theorem arity_signature (builtin : Builtin) : builtin.signature.arity = builtin.arity := by
  cases builtin <;> rfl

/-- Letters without the namespace in front of them, if there is one. -/
def withoutArea (letters : List Char) : List Char :=
  ("ta.".toList.isPrefixOf? letters <|> "math.".toList.isPrefixOf? letters).getD letters

/-- The letters before the first dot, if there is a dot. -/
def areaOf? (letters : List Char) : Option (List Char) :=
  if '.' ∈ letters then some (letters.takeWhile (· != '.')) else none

/-- The function that a word is recognized as. -/
def recognize? (word : String) : Option Builtin := do
  let builtin ← all.find? (·.name == .ofList (withoutArea word.toList))
  match areaOf? word.toList with
  | none => some builtin
  | some area => if area = builtin.area.toList then some builtin else none

/-- There is no namespace in front of letters without a dot. -/
theorem withoutArea_of_not_mem {letters : List Char} (hdot : '.' ∉ letters) :
    withoutArea letters = letters := by
  have hnone {front : List Char} (hfront : '.' ∈ front) : front.isPrefixOf? letters = none := by
    refine Option.eq_none_iff_forall_ne_some.2 fun rest hrest => hdot ?_
    rw [← List.isPrefixOf?_eq_some_iff_append_eq.1 hrest]
    exact List.mem_append_left rest hfront
  rw [withoutArea, hnone (by decide), hnone (by decide)]
  rfl

/-- What stands behind the namespace of a function. -/
theorem withoutArea_area (builtin : Builtin) (rest : List Char) :
    withoutArea (builtin.area.toList ++ '.' :: rest) = rest := by
  unfold area
  split <;> rfl

/-- A word that is found to lie in a namespace begins with its name and a point. -/
theorem eq_append_of_areaOf? {letters area : List Char} (harea : areaOf? letters = some area) :
    ∃ rest, letters = area ++ '.' :: rest := by
  rw [areaOf?] at harea
  split at harea
  · rename_i hdot
    cases harea
    have hbehind : letters.dropWhile (· != '.') ≠ [] := by
      simpa [List.dropWhile_eq_nil_iff, bne_iff_ne] using hdot
    obtain ⟨dot, rest, hcons⟩ := List.exists_cons_of_ne_nil hbehind
    have hhead : dot = '.' := by
      have hnot := List.head_dropWhile_not (· != '.') hbehind
      simpa [hcons] using hnot
    refine ⟨rest, ?_⟩
    subst dot
    rw [← hcons, List.takeWhile_append_dropWhile]
  · cases harea

/-- A word is recognized as a function if it is its bare name, or its namespace, a dot and its bare
    name. -/
theorem recognize?_eq_some_iff {word : String} {builtin : Builtin} :
    recognize? word = some builtin ↔ word = builtin.name ∨ word = builtin.qualifiedName := by
  constructor
  · intro hword
    obtain ⟨found, hfind, hfound⟩ := Option.bind_eq_some_iff.1 hword
    have hname : found.name = .ofList (withoutArea word.toList) := by
      simpa using List.find?_some hfind
    split at hfound
    · rename_i hnone
      cases hfound
      have hdot : '.' ∉ word.toList := by simpa [areaOf?] using hnone
      rw [withoutArea_of_not_mem hdot, String.ofList_toList] at hname
      exact .inl hname.symm
    · rename_i area harea
      split at hfound
      · cases hfound
        subst area
        obtain ⟨rest, hletters⟩ := eq_append_of_areaOf? harea
        rw [hletters, withoutArea_area] at hname
        refine .inr (String.toList_injective ?_)
        simp [qualifiedName, hname, hletters]
      · cases hfound
  · rintro (rfl | rfl)
    · cases builtin with
      | study study => cases study <;> decide
      | averageRange => decide
      | pairing pairing => cases pairing <;> decide
      | abs => decide
    · cases builtin with
      | study study => cases study <;> decide
      | averageRange => decide
      | pairing pairing => cases pairing <;> decide
      | abs => decide

/-- The names that are recognized are those that functions answer to. -/
theorem recognize?_eq_ofName? (word : String) : recognize? word = ofName? word := by
  refine Option.ext fun builtin => recognize?_eq_some_iff.trans ?_
  constructor
  · rintro (rfl | rfl)
    · exact ofName?_name builtin
    · exact ofName?_qualifiedName builtin
  · intro hword
    simpa using List.find?_some hword

end Builtin

end Candlewick
