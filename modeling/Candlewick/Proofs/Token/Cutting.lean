import Candlewick.Proofs.Token.Piece
import Mathlib.Data.List.Basic
import Mathlib.Data.List.TakeWhile

namespace Candlewick

namespace Lexeme

variable {cs kept : List Char}

theorem mem_head?_of_isPrefix {rest : List Char} (hkept : kept <+: rest) {c : Char}
    (hc : c ∈ kept.head?) : c ∈ rest.head? := by
  obtain ⟨more, rfl⟩ := hkept
  exact List.mem_head?_append_of_mem_head? hc

/-- A run that ends in front of a cut, or at it, is the same without what is cut off. -/
theorem run_cut {p : Char → Bool} (hkept : kept <+: (run p cs).2) :
    run p ((run p cs).1 ++ kept) = ((run p cs).1, kept) := by
  have htaken : ∀ c ∈ (run p cs).1, p c = true := fun _ => mem_run
  cases kept with
  | nil =>
    rw [List.append_nil, run, List.takeWhile_eq_self_iff.2 htaken,
      List.dropWhile_eq_nil_iff.2 htaken]
  | cons stop more =>
    refine run_stop htaken ?_ more
    have hhead : (cs.dropWhile p).head? = some stop := mem_head?_of_isPrefix hkept rfl
    have hstop := List.head?_dropWhile_not p cs
    rw [hhead] at hstop
    simpa using hstop

theorem number_cut (hkept : kept <+: (number cs).2) :
    number ((number cs).1 ++ kept) = ((number cs).1, kept) := by
  have hwhole : ∀ {kept : List Char}, kept <+: (run Char.isDigit cs).2 →
      run Char.isDigit ((run Char.isDigit cs).1 ++ kept) = ((run Char.isDigit cs).1, kept) :=
    run_cut
  unfold number at hkept ⊢
  generalize run Char.isDigit cs = split at hkept hwhole ⊢
  obtain ⟨whole, rest⟩ := split
  simp only at hkept hwhole ⊢
  split at hkept
  · rename_i digit more
    by_cases hdigit : digit.isDigit = true
    · -- The cut lies behind the fraction.
      rw [if_pos hdigit] at hkept ⊢
      have hfraction : '.' :: (run Char.isDigit (digit :: more)).1 ++ kept <+:
          '.' :: digit :: more := by
        obtain ⟨behind, hbehind⟩ := hkept
        refine ⟨behind, ?_⟩
        rw [List.cons_append, List.cons_append, List.append_assoc, hbehind, run_append]
      have hcons : (run Char.isDigit (digit :: more)).1 = digit :: more.takeWhile Char.isDigit :=
        List.takeWhile_cons_of_pos hdigit
      have hcut := run_cut hkept
      simp only [List.append_assoc, hwhole hfraction]
      rw [hcons] at hcut ⊢
      simp only [List.cons_append, if_pos hdigit] at hcut ⊢
      rw [hcut]
    · rw [if_neg hdigit] at hkept ⊢
      simp only [hwhole hkept]
      split
      · obtain ⟨behind, hbehind⟩ := hkept
        cases hbehind
        rw [if_neg hdigit]
      · rfl
  · rename_i hpoint
    simp only [hwhole hkept]
    split
    · obtain ⟨behind, hbehind⟩ := hkept
      exact absurd hbehind.symm (hpoint _ _)
    · rfl

/-- What begins no word still begins none if less follows it. -/
theorem word_stop (hstop : (word cs).1 = []) (hkept : kept <+: cs) : word kept = ([], kept) := by
  obtain ⟨behind, rfl⟩ := hkept
  fun_cases word kept with
  | case1 | case2 | case4 | case6 => rfl
  | case3 c rest hstart taken later hword =>
    rw [List.cons_append, List.cons_append, word, if_pos hstart] at hstop
    cases hstop
  | case5 c rest _ _ hrest taken later hword =>
    have hpoint : c ≠ '.' := by
      rintro rfl
      exact absurd hrest (by decide)
    rw [List.cons_append, word, if_pos hrest] at hstop
    · cases hstop
    · exact fun hdot _ => hpoint hdot
    · exact fun _ _ hdot _ => hpoint hdot

theorem word_cut (hkept : kept <+: (word cs).2) :
    word ((word cs).1 ++ kept) = ((word cs).1, kept) := by
  fun_induction word cs with
  | case1 => exact word_stop rfl hkept
  | case2 => exact word_stop rfl hkept
  | case4 c rest hstart =>
    exact word_stop (by rw [word, if_neg hstart]) hkept
  | case6 c rest hpoint hletter hrest =>
    exact word_stop (by rw [word, if_neg hrest]; exacts [hpoint, hletter]) hkept
  | case3 c rest hstart taken later hword ih =>
    obtain ⟨behind, hcons⟩ := word_fst_eq_cons rest hstart
    rw [hword] at ih hcons
    simp only at ih hcons hkept ⊢
    have hagain := ih hkept
    rw [hcons, List.cons_append] at hagain
    rw [hcons, List.cons_append, List.cons_append, word, if_pos hstart, hagain]
  | case5 c rest _ _ hrest taken later hword ih =>
    have hpoint : c ≠ '.' := by
      rintro rfl
      exact absurd hrest (by decide)
    rw [hword] at ih
    simp only at ih hkept ⊢
    rw [List.cons_append, word, if_pos hrest, ih hkept]
    · exact fun hdot _ => hpoint hdot
    · exact fun _ _ hdot _ => hpoint hdot

theorem symbol?_cut {written rest : List Char} {kind : TokenKind}
    (hsymbol : symbol? cs = some (kind, written, rest)) (hkept : kept <+: rest) :
    symbol? (written ++ kept) = some (kind, written, kept) := by
  have hsame : ∀ {more}, kept = '=' :: more → ∃ behind, rest = '=' :: behind := by
    rintro more rfl
    obtain ⟨behind, rfl⟩ := hkept
    exact ⟨more ++ behind, rfl⟩
  unfold symbol? at hsymbol
  split at hsymbol <;> cases hsymbol
  case h_12 hlonger | h_13 hlonger | h_14 hlonger =>
    -- These three have a longer operator, which the text behind them did not make.
    rw [List.singleton_append, symbol?]
    intro more hmore
    obtain ⟨behind, rfl⟩ := hsame hmore
    exact hlonger behind rfl
  all_goals rfl

end Lexeme

namespace Lexer

/-- A piece is read as before if the text behind it is cut off. -/
theorem piece_cut {c : Char} {rest kept : List Char} {p : Piece} (hpiece : piece c rest = .ok p)
    (hkept : kept <+: p.rest) :
    ∃ tail, p.written = c :: tail ∧ piece c (tail ++ kept) = .ok ⟨p.head, p.written, kept⟩ := by
  cases firstPiece hpiece with
  | lineFeed hline => exact ⟨[], rfl, if_pos hline⟩
  | blank hline hblank => exact ⟨[], rfl, (if_neg hline).trans (if_pos hblank)⟩
  | @comment more hslash hrest =>
    subst hslash hrest
    have hcut := Lexeme.run_cut hkept
    have htext : (Lexeme.run (· != '\n') ('/' :: more)).1 =
        '/' :: more.takeWhile (· != '\n') := by
      rw [Lexeme.run, List.takeWhile_cons_of_pos (by decide)]
    rw [htext, List.cons_append] at hcut
    exact ⟨_, rfl, by rw [htext, List.cons_append, piece_comment, hcut]⟩
  | number hline hblank hdigit =>
    have hcut := Lexeme.number_cut hkept
    obtain ⟨tail, hwritten⟩ := Lexeme.number_fst_eq_cons rest hdigit
    rw [hwritten, List.cons_append] at hcut
    exact ⟨tail, hwritten, by rw [piece_number hline hblank hdigit, hcut, hwritten]⟩
  | @text q hline hblank hdigit hquote hquoted =>
    exact ⟨q.written, rfl, by
      rw [piece_quoted hline hblank hdigit hquote, Lexeme.quoted_append_rest hquoted]⟩
  | word hline hblank hdigit hquote hstart =>
    have hcut := Lexeme.word_cut hkept
    obtain ⟨tail, hwritten⟩ := Lexeme.word_fst_eq_cons rest hstart
    rw [hwritten, List.cons_append] at hcut
    exact ⟨tail, hwritten, by rw [piece_word hline hblank hdigit hquote hstart, hcut, hwritten]⟩
  | symbol hline hblank hcomment hdigit hquote hstart hsymbol =>
    have hcut := Lexeme.symbol?_cut hsymbol hkept
    obtain ⟨happend, hne⟩ := Lexeme.symbol?_append hsymbol
    obtain ⟨tail, rfl⟩ := Lexeme.exists_eq_cons_of_append happend hne
    have hshorter : tail ++ kept <+: rest := by
      obtain ⟨more, rfl⟩ := hkept
      exact ⟨more, by rw [List.append_assoc]; exact (List.cons.inj happend).2⟩
    have hagain : ¬ (c = '/' ∧ (tail ++ kept).head? = some '/') :=
      fun hslash => hcomment ⟨hslash.1, Lexeme.mem_head?_of_isPrefix hshorter hslash.2⟩
    rw [List.cons_append] at hcut
    exact ⟨tail, rfl, by rw [piece_symbol? hline hblank hagain hdigit hquote hstart, hcut]⟩

end Lexer

end Candlewick
