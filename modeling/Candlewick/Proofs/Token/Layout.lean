import Candlewick.Proofs.Token.Respacing
import Mathlib.Data.List.DropRight

namespace Candlewick

namespace Layout

section

variable {α β : Type} (isEnd : α → Bool)

/-- Entries without the ends of lines in front of the others and behind them. -/
def trimmed (entries : List α) : List α :=
  (entries.dropWhile isEnd).rdropWhile isEnd

/-- Entries with one end of a line in place of several that stand together. -/
def collapsed : List α → List α
  | [] => []
  | entry :: rest =>
    if isEnd entry && (collapsed rest).head?.any isEnd then collapsed rest
    else entry :: collapsed rest

/-- Entries with one end of a line in place of several that stand together, and none behind the
    others. -/
def squeezed : List α → List α
  | [] => []
  | entry :: rest =>
    if isEnd entry && (squeezed rest).head?.all isEnd then squeezed rest
    else entry :: squeezed rest

variable {isEnd}

theorem squeezed_cons_of_not {entry : α} (hentry : ¬ isEnd entry = true) (rest : List α) :
    squeezed isEnd (entry :: rest) = entry :: squeezed isEnd rest := by
  rw [squeezed, if_neg (by simp [hentry])]

/-- An end of a line behind all others is dropped. -/
theorem squeezed_concat_of_isEnd {last : α} (hlast : isEnd last = true) (entries : List α) :
    squeezed isEnd (entries ++ [last]) = squeezed isEnd entries := by
  induction entries with
  | nil => simp [squeezed, hlast]
  | cons entry rest ih => rw [List.cons_append, squeezed, squeezed, ih]

/-- An entry that is no end of a line is left over. -/
theorem squeezed_concat_ne_nil {last : α} (hlast : ¬ isEnd last = true) (entries : List α) :
    squeezed isEnd (entries ++ [last]) ≠ [] := by
  induction entries with
  | nil => simp [squeezed, hlast]
  | cons entry rest ih =>
    rw [List.cons_append, squeezed]
    split
    · exact ih
    · exact List.cons_ne_nil _ _

/-- Up to the last entry that is no end of a line, there is nothing behind the others to drop. -/
theorem collapsed_concat {last : α} (hlast : ¬ isEnd last = true) (entries : List α) :
    collapsed isEnd (entries ++ [last]) = squeezed isEnd (entries ++ [last]) := by
  induction entries with
  | nil => simp [collapsed, squeezed, hlast]
  | cons entry rest ih =>
    obtain ⟨next, more, hrest⟩ := List.exists_cons_of_ne_nil (squeezed_concat_ne_nil hlast rest)
    rw [List.cons_append, collapsed, squeezed, ih, hrest]
    rfl

/-- Dropping what is behind and collapsing the rest can be done at once. -/
theorem collapsed_trimmed (entries : List α) :
    collapsed isEnd (trimmed isEnd entries) = squeezed isEnd (entries.dropWhile isEnd) := by
  rw [trimmed]
  generalize entries.dropWhile isEnd = entries
  induction entries using List.reverseRecOn with
  | nil => rfl
  | append_singleton entries last ih =>
    by_cases hlast : isEnd last = true
    · rw [List.rdropWhile_concat_pos _ _ _ hlast, squeezed_concat_of_isEnd hlast, ih]
    · rw [List.rdropWhile_concat_neg _ _ _ hlast, collapsed_concat hlast]

/-- It does not matter whether entries are squeezed before or after they are changed, as long as the
    ends of lines are the same. -/
theorem squeezed_map {isEnd' : β → Bool} (f : α → β)
    (hisEnd : ∀ entry, isEnd' (f entry) = isEnd entry) (entries : List α) :
    squeezed isEnd' (entries.map f) = (squeezed isEnd entries).map f := by
  induction entries with
  | nil => rfl
  | cons entry rest ih =>
    have hhead : ((squeezed isEnd rest).map f).head?.all isEnd' =
        (squeezed isEnd rest).head?.all isEnd := by
      cases squeezed isEnd rest with
      | nil => rfl
      | cons next more => exact hisEnd next
    rw [List.map_cons, squeezed, squeezed, ih, hhead, hisEnd]
    split <;> rfl

/-- Entries that begin with an end of a line do so without the others, or nothing is left. -/
theorem squeezed_head_of_isEnd {entry : α} (hentry : isEnd entry = true) (rest : List α) :
    (squeezed isEnd (entry :: rest)).head?.all isEnd = true := by
  rw [squeezed]
  split
  · rename_i hdropped
    rw [hentry, Bool.true_and] at hdropped
    exact hdropped
  · simpa using hentry

end

end Layout

namespace Token

/-- The kinds and the texts of some tokens without their layout: up to the end of the source, with no
    ends of lines in front and behind, and one in place of several that stand together. -/
def withoutLayout (tokens : List Token) : List (TokenKind × String) :=
  Layout.collapsed (·.1 == .lineEnd)
    (Layout.trimmed (·.1 == .lineEnd)
      ((tokens.takeWhile (·.kind != .sourceEnd)).map spelled))

end Token

end Candlewick
