import Candlewick.Text.Lines
import Mathlib.Data.List.Basic

namespace Candlewick.Text

variable {separator : Char}

/-- No piece has a separator in it. -/
theorem not_mem_of_mem_pieces {cs piece : List Char} (hpiece : piece ∈ pieces separator cs) :
    separator ∉ piece := by
  induction cs generalizing piece with
  | nil =>
    rw [List.mem_singleton.1 hpiece]
    exact List.not_mem_nil
  | cons c rest ih =>
    rw [pieces] at hpiece
    split at hpiece
    · rcases List.mem_cons.1 hpiece with rfl | hlater
      · exact List.not_mem_nil
      · exact ih hlater
    · rename_i hother
      obtain ⟨first, more, hpieces⟩ := List.exists_cons_of_ne_nil (pieces_ne_nil separator rest)
      rw [hpieces] at hpiece ih
      rcases List.mem_cons.1 hpiece with rfl | hlater
      · rw [List.mem_cons, not_or]
        exact ⟨Ne.symm hother, ih List.mem_cons_self⟩
      · exact ih (List.mem_cons_of_mem _ hlater)

/-- A text without separators is a single piece. -/
theorem pieces_of_not_mem {piece : List Char} (hpiece : separator ∉ piece) :
    pieces separator piece = [piece] := by
  induction piece with
  | nil => rfl
  | cons c rest ih =>
    rw [List.mem_cons, not_or] at hpiece
    rw [pieces, if_neg (Ne.symm hpiece.1), ih hpiece.2]

/-- A separator ends a piece. -/
theorem pieces_append {piece : List Char} (hpiece : separator ∉ piece) (rest : List Char) :
    pieces separator (piece ++ separator :: rest) = piece :: pieces separator rest := by
  induction piece with
  | nil => rw [List.nil_append, pieces, if_pos rfl]
  | cons c piece ih =>
    rw [List.mem_cons, not_or] at hpiece
    rw [List.cons_append, pieces, if_neg (Ne.symm hpiece.1), ih hpiece.2]

/-- Texts without separators, joined by separators, are the pieces of what they make up. -/
theorem pieces_intercalate {parts : List (List Char)} (hne : parts ≠ [])
    (hparts : ∀ part ∈ parts, separator ∉ part) :
    pieces separator (List.intercalate [separator] parts) = parts := by
  induction parts with
  | nil => exact absurd rfl hne
  | cons part parts ih =>
    obtain ⟨hpart, hrest⟩ := List.forall_mem_cons.1 hparts
    cases parts with
    | nil =>
      rw [List.intercalate_singleton]
      exact pieces_of_not_mem hpart
    | cons next parts =>
      rw [List.intercalate_cons_cons, List.append_assoc, List.singleton_append,
        pieces_append hpart, ih (List.cons_ne_nil _ _) hrest]

end Candlewick.Text
