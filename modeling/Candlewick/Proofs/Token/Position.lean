import Candlewick.Token
import Mathlib.Data.List.DropRight

namespace Candlewick

namespace Place

/-- The place behind the characters at the front of a source: their bytes, their line feeds, and the
    characters since the last line feed. -/
def behind (front : List Char) : Place :=
  ⟨(String.ofList front).utf8ByteSize, 1 + front.count '\n',
    1 + (front.rtakeWhile (· ≠ '\n')).length⟩

/-- One more character moves the place as the scanner moves it. -/
theorem behind_concat (front : List Char) (c : Char) :
    behind (front ++ [c]) = (behind front).next c := by
  have hbytes : (String.ofList (front ++ [c])).utf8ByteSize =
      (String.ofList front).utf8ByteSize + c.utf8Size := by
    rw [String.ofList_append, String.utf8ByteSize_append, ← String.singleton_eq_ofList,
      String.utf8ByteSize_singleton]
  simp only [behind, next, hbytes, List.count_append, List.rtakeWhile_concat]
  by_cases hline : c = '\n'
  · subst hline
    simp [Nat.add_assoc]
  · simp [hline, Nat.add_assoc]

/-- Counting character by character leads to the same place. -/
theorem after_start (front : List Char) : start.after front = behind front := by
  induction front using List.reverseRecOn with
  | nil => rfl
  | append_singleton front c ih => rw [after_append, ih, behind_concat]; rfl

/-- A place can be reached by way of any place in front of it. -/
theorem behind_append (front back : List Char) :
    behind (front ++ back) = (behind front).after back := by
  rw [← after_start, after_append, after_start]

/-- What is added to a text is added to its bytes. -/
theorem offset_behind_append (front back : List Char) :
    (behind (front ++ back)).offset =
      (behind front).offset + (String.ofList back).utf8ByteSize := by
  rw [behind, behind, String.ofList_append, String.utf8ByteSize_append]

/-- A longer text ends at a greater offset, as every character takes a byte at least. -/
theorem offset_behind_lt {front back : List Char} (hback : back ≠ []) :
    (behind front).offset < (behind (front ++ back)).offset := by
  rw [offset_behind_append]
  have hpositive : (String.ofList back).utf8ByteSize ≠ 0 := by
    rw [Ne, String.utf8ByteSize_eq_zero_iff, String.ofList_eq_empty_iff]
    exact hback
  omega

/-- The offset behind a whole source is its length in bytes. -/
theorem offset_behind_toList (source : String) :
    (behind source.toList).offset = source.utf8ByteSize := by
  rw [behind, String.ofList_toList]

end Place

/-- The offset behind a token. -/
def Token.stop (token : Token) : Nat :=
  token.place.offset + token.lexeme.utf8ByteSize

end Candlewick
