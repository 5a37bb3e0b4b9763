import Candlewick.Text.Lines
import Mathlib.Data.List.DropRight

namespace Candlewick.Text

/-- A line without the carriage return directly in front of the line feed that ends it. -/
def withoutReturn (line : List Char) : List Char :=
  if line.getLast? = some '\r' then line.dropLast else line

/-- The line of the place between two parts of a text: from the line feed in front of the place up
    to the one behind it, without what ends the line. -/
def lineAround (front back : List Char) : List Char :=
  let line := front.rtakeWhile (· ≠ '\n') ++ back.takeWhile (· ≠ '\n')
  if '\n' ∈ back then withoutReturn line else line

/-- A character that does not end a line belongs to the first line. -/
theorem lines_cons {c : Char} {rest : List Char} (hfeed : c ≠ '\n')
    (hreturn : c = '\r' → rest.head? ≠ some '\n') :
    lines (c :: rest) =
      match lines rest with
      | [] => [[c]]
      | line :: more => (c :: line) :: more := by
  refine lines.eq_4 c rest hfeed ?_
  rintro more rfl rfl
  exact hreturn rfl rfl

/-- Only a carriage return at the very end of a line is dropped. -/
theorem withoutReturn_cons {c : Char} {line : List Char} (hreturn : c = '\r' → line ≠ []) :
    withoutReturn (c :: line) = c :: withoutReturn line := by
  cases line with
  | nil =>
    have hne : c ≠ '\r' := fun hsame => hreturn hsame rfl
    simp [withoutReturn, hne]
  | cons next line =>
    unfold withoutReturn
    rw [List.getLast?_cons_cons, List.dropLast_cons_cons]
    split <;> rfl

/-- A line feed ends a line. -/
theorem lines_append_lineFeed {line : List Char} (hline : '\n' ∉ line) (rest : List Char) :
    lines (line ++ '\n' :: rest) = withoutReturn line :: lines rest := by
  induction line with
  | nil => rfl
  | cons c line ih =>
    rw [List.mem_cons, not_or] at hline
    by_cases hreturn : c = '\r' ∧ line = []
    · obtain ⟨rfl, rfl⟩ := hreturn
      rfl
    · rw [List.cons_append, lines_cons (Ne.symm hline.1), ih hline.2, withoutReturn_cons]
      · exact fun hsame hnil => hreturn ⟨hsame, hnil⟩
      · intro hsame hhead
        cases line with
        | nil => exact hreturn ⟨hsame, rfl⟩
        | cons next line =>
          obtain rfl := Option.some.inj hhead
          exact hline.2 List.mem_cons_self

/-- A text without a line feed is one line, unless it is empty. -/
theorem getD_lines_zero {line : List Char} (hline : '\n' ∉ line) :
    (lines line)[0]?.getD [] = line := by
  have hlines : line ≠ [] → lines line = [line] := by
    intro hne
    induction line with
    | nil => exact absurd rfl hne
    | cons c line ih =>
      rw [List.mem_cons, not_or] at hline
      rw [lines_cons (Ne.symm hline.1)]
      · cases line with
        | nil => rfl
        | cons next line => rw [ih hline.2 (List.cons_ne_nil _ _)]
      · exact fun _ hhead => hline.2 (List.mem_of_head? hhead)
  cases line with
  | nil => rfl
  | cons c line => rw [hlines (List.cons_ne_nil _ _)]; rfl

theorem rtakeWhile_append_cons {p : Char → Bool} {stop : Char} (hstop : p stop = false)
    (front back : List Char) :
    (front ++ stop :: back).rtakeWhile p = back.rtakeWhile p := by
  rw [List.rtakeWhile, List.rtakeWhile, List.reverse_append, List.reverse_cons, List.append_assoc,
    List.takeWhile_append]
  split
  · rename_i hall
    rw [List.singleton_append, List.takeWhile_cons_of_neg (by simp [hstop]), List.append_nil]
    rw [List.IsPrefix.eq_of_length (List.takeWhile_prefix p) hall]
  · rfl

/-- The line with the number of the line feeds in front of a place is the line of the place. -/
theorem getD_lines_count (front back : List Char) :
    (lines (front ++ back))[front.count '\n']?.getD [] = lineAround front back := by
  by_cases hfront : '\n' ∈ front
  · -- The first line lies in front of the place, and the others are those of the text behind it.
    obtain ⟨line, rest, hsplit, hline⟩ := List.eq_append_cons_of_mem hfront
    have hshorter : rest.length < front.length := by simp [hsplit]; omega
    have hrest := getD_lines_count rest back
    have hcount : front.count '\n' = rest.count '\n' + 1 := by
      rw [hsplit, List.count_append, List.count_eq_zero.2 hline, List.count_cons_self]
      omega
    rw [hcount, hsplit, List.append_assoc, List.cons_append, lines_append_lineFeed hline,
      List.getElem?_cons_succ, hrest, lineAround, lineAround, rtakeWhile_append_cons (by simp)]
  · have hline : front.rtakeWhile (· ≠ '\n') = front :=
      List.rtakeWhile_eq_self_iff.2 fun c hc => by
        simpa using fun hsame : c = '\n' => hfront (hsame ▸ hc)
    rw [List.count_eq_zero.2 hfront, lineAround, hline]
    by_cases hback : '\n' ∈ back
    · obtain ⟨line, rest, rfl, hnot⟩ := List.eq_append_cons_of_mem hback
      have htake : (line ++ '\n' :: rest).takeWhile (· ≠ '\n') = line := by
        rw [List.takeWhile_append_of_pos, List.takeWhile_cons_of_neg (by simp), List.append_nil]
        intro c hc
        simpa using fun hsame : c = '\n' => hnot (hsame ▸ hc)
      rw [if_pos hback, htake, ← List.append_assoc, lines_append_lineFeed]
      · rfl
      · simp [hfront, hnot]
    · have htake : back.takeWhile (· ≠ '\n') = back :=
        List.takeWhile_eq_self_iff.2 fun c hc => by
          simpa using fun hsame : c = '\n' => hback (hsame ▸ hc)
      rw [if_neg hback, htake, getD_lines_zero]
      simp [hfront, hback]
termination_by front.length

end Candlewick.Text
