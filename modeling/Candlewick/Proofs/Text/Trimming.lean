import Candlewick.Text.Blank
import Mathlib.Data.List.DropRight

namespace Candlewick.Text

/-- A text that begins with no blank has no front that does. -/
theorem trimmedStart_of_isPrefix {front cs : List Char} (hfront : front <+: cs)
    (hcs : trimmedStart cs = cs) : trimmedStart front = front := by
  cases front with
  | nil => rfl
  | cons c front =>
    obtain ⟨rest, rfl⟩ := hfront
    have hfirst : isBlank c = false := not_isBlank_of_trimmedStart_eq_cons hcs
    rw [trimmedStart, List.dropWhile_cons_of_neg (by simp [hfirst])]

/-- Trimming is cutting the blanks off at both ends. -/
theorem trimmed_eq (cs : List Char) : trimmed cs = (trimmedStart cs).rdropWhile isBlank := rfl

/-- Trimming a text once more does nothing. -/
theorem trimmed_trimmed (cs : List Char) : trimmed (trimmed cs) = trimmed cs := by
  have hstart : trimmedStart (trimmed cs) = trimmed cs :=
    trimmedStart_of_isPrefix (List.rdropWhile_prefix isBlank _) (List.dropWhile_idempotent _ cs)
  rw [trimmed_eq (trimmed cs), hstart]
  exact List.rdropWhile_idempotent isBlank _

/-- Trimming leaves a text as it is if there is no blank at either end of it. -/
theorem trimmed_eq_self_iff {cs : List Char} :
    trimmed cs = cs ↔
      (∀ c ∈ cs.head?, isBlank c = false) ∧ ∀ c ∈ cs.getLast?, isBlank c = false := by
  constructor
  · intro hcs
    have hstart : trimmedStart cs = cs := by
      have hprefix := trimmedStart_of_isPrefix (List.rdropWhile_prefix isBlank (trimmedStart cs))
        (List.dropWhile_idempotent _ cs)
      rwa [← trimmed_eq, hcs] at hprefix
    constructor
    · intro c hc
      obtain ⟨rest, rfl⟩ := List.head?_eq_some_iff.1 hc
      exact not_isBlank_of_trimmedStart_eq_cons hstart
    · intro c hc
      rw [trimmed_eq, hstart, List.rdropWhile_eq_self_iff] at hcs
      obtain ⟨front, rfl⟩ := List.getLast?_eq_some_iff.1 hc
      simpa using hcs (by simp)
  · rintro ⟨hfirst, hlast⟩
    have hstart : trimmedStart cs = cs := by
      cases cs with
      | nil => rfl
      | cons c rest => exact List.dropWhile_cons_of_neg (by simpa using hfirst c rfl)
    rw [trimmed_eq, hstart, List.rdropWhile_eq_self_iff]
    intro hne
    simpa using hlast _ (List.getLast?_eq_some_getLast hne)

end Candlewick.Text
