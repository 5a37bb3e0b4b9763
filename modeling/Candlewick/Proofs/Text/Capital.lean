import Candlewick.Text.Blank
import Candlewick.Text.Capital
import Mathlib.Data.List.Basic

namespace Candlewick.Text

/-- Code points from `first` to `last` that are no capitals of small letters. -/
structure Gap where
  first : Nat
  last : Nat

/-- The blanks, the comma, the small letters of ASCII and the code points without a character. -/
def gaps : List Gap := [
  ⟨0, 0x40⟩, ⟨0x61, 0x7A⟩, ⟨0x85, 0x85⟩, ⟨0xA0, 0xA0⟩, ⟨0x1680, 0x1680⟩, ⟨0x2000, 0x200A⟩,
  ⟨0x2028, 0x2029⟩, ⟨0x202F, 0x202F⟩, ⟨0x205F, 0x205F⟩, ⟨0x3000, 0x3000⟩, ⟨0xD800, 0xDFFF⟩]

namespace LetterRun

/-- A single letter that stands for itself. -/
def single (n : Nat) : LetterRun := ⟨n, n, 1, n⟩

/-- The last of the capitals of a run. -/
def lastCapital (run : LetterRun) : Nat :=
  run.capital + (run.last - run.first)

/-- No capital of a run lies in a gap. -/
def avoids (run : LetterRun) (gap : Gap) : Bool :=
  Nat.ble (run.lastCapital + 1) gap.first || Nat.ble (gap.last + 1) run.capital

/-- No capital of a run is a small letter of another one. The runs that lie across each other have a
    small letter at every other code point and the capitals between them. -/
def apart (run other : LetterRun) : Bool :=
  run.avoids ⟨other.first, other.last⟩ ||
    (Nat.beq run.step other.step || Nat.beq run.first run.last) &&
      !Nat.beq (run.capital % other.step) (other.first % other.step)

/-- The capitals of a run are settled. -/
def isSettled (run : LetterRun) : Bool :=
  Nat.ble run.lastCapital 0x10FFFF && gaps.all run.avoids &&
    letterExpansions.all (fun entry => run.avoids ⟨entry.1, entry.1⟩) &&
    letterRuns.toList.all run.apart

end LetterRun

/-- No run of letters leads into a letter that has a capital of its own. -/
theorem letterRuns_settled : letterRuns.toList.all LetterRun.isSettled = true := by
  decide +kernel

/-- No letter whose capital is several characters leads into one that has a capital of its own. -/
theorem letterExpansions_settled :
    (letterExpansions.all fun entry => entry.2.all fun n => (LetterRun.single n).isSettled) =
      true := by
  decide +kernel

/-- A character that stands for itself where letters become capital, and that is neither a blank nor a
    comma. -/
structure Settled (c : Char) : Prop where
  capital_eq : capital c = [c]
  notBlank : isBlank c = false
  notComma : c ≠ ','

/-- A code point outside the gaps that the tables have no capital for. -/
theorem settled_of_code {n : Nat} (hcode : n ≤ 0x10FFFF)
    (hgaps : ∀ gap ∈ gaps, n < gap.first ∨ gap.last < n)
    (hexpansions : ∀ entry ∈ letterExpansions, n ≠ entry.1)
    (hruns : ∀ run ∈ letterRuns.toList, run.capital? n = none) : Settled (Char.ofNat n) := by
  simp only [gaps, List.forall_mem_cons] at hgaps
  have hvalid : n.isValidChar := by
    unfold Nat.isValidChar
    omega
  have hnat : (Char.ofNat n).toNat = n := by
    rw [Char.ofNat, dif_pos hvalid]
    rfl
  refine ⟨?_, ?_, ?_⟩
  · rw [capital, hnat]
    split
    · unfold Char.toUpper
      rw [dif_neg]
      rintro ⟨hlower, hupper⟩
      have hlower : 97 ≤ n := hnat ▸ UInt32.le_iff_toNat_le.1 hlower
      have hupper : n ≤ 122 := hnat ▸ UInt32.le_iff_toNat_le.1 hupper
      omega
    · have hlookup : letterExpansions.lookup n = none :=
        List.lookup_eq_none_iff.2 fun entry hmem => bne_iff_ne.2 (hexpansions entry hmem)
      have hfind : letterRuns.findSome? (·.capital? n) = none := by
        rw [← Array.findSome?_toList]
        exact List.findSome?_eq_none_iff.2 hruns
      rw [hlookup, hfind]
  · unfold isBlank
    rw [hnat]
    simp only [Bool.or_eq_false_iff, Bool.and_eq_false_iff, decide_eq_false_iff_not, beq_eq_false_iff_ne]
    omega
  · intro hcomma
    rw [hcomma] at hnat
    have hcode : ','.toNat = 0x2C := rfl
    omega

/-- The capitals of a run that avoids a gap lie in front of the gap or behind it. -/
theorem LetterRun.not_mem_gap {run : LetterRun} {gap : Gap} {n : Nat}
    (havoids : run.avoids gap = true) (hfirst : run.capital ≤ n) (hlast : n ≤ run.lastCapital) :
    n < gap.first ∨ gap.last < n := by
  simp only [avoids, Bool.or_eq_true, Nat.ble_eq] at havoids
  omega

/-- A capital of a run is no small letter of a run that lies apart. -/
theorem LetterRun.capital?_eq_none {run other : LetterRun} {distance : Nat}
    (hapart : run.apart other = true) (hdistance : distance ≤ run.last - run.first)
    (hstep : distance % run.step = 0) : other.capital? (run.capital + distance) = none := by
  rw [capital?, if_neg]
  rintro ⟨hfirst, hlast, hsmall⟩
  simp only [apart, Bool.or_eq_true, Bool.and_eq_true, Nat.beq_eq, Bool.not_eq_true'] at hapart
  rcases hapart with havoids | ⟨hsame, hother⟩
  · have hgap := not_mem_gap havoids (Nat.le_add_right run.capital distance)
      (Nat.add_le_add_left hdistance run.capital)
    dsimp only at hgap
    omega
  · -- A capital is as far from a multiple of the step as the first one, and so is a small letter.
    have hcapital : (run.capital + distance) % other.step = run.capital % other.step := by
      rcases hsame with hsame | hsingle
      · rw [← hsame, Nat.add_mod, hstep, Nat.add_zero, Nat.mod_mod]
      · rw [show distance = 0 by omega, Nat.add_zero]
    have hletter : (run.capital + distance) % other.step = other.first % other.step := by
      rw [show run.capital + distance = other.first + (run.capital + distance - other.first) by omega,
        Nat.add_mod, hsmall, Nat.add_zero, Nat.mod_mod]
    rw [hcapital] at hletter
    exact absurd hletter (Nat.ne_of_beq_eq_false hother)

theorem LetterRun.settled {run : LetterRun} {distance : Nat} (hsettled : run.isSettled = true)
    (hdistance : distance ≤ run.last - run.first) (hstep : distance % run.step = 0) :
    Settled (Char.ofNat (run.capital + distance)) := by
  have hfirst : run.capital ≤ run.capital + distance := Nat.le_add_right _ _
  have hlast : run.capital + distance ≤ run.lastCapital := Nat.add_le_add_left hdistance _
  simp only [isSettled, Bool.and_eq_true, Nat.ble_eq, List.all_eq_true] at hsettled
  obtain ⟨⟨⟨hcode, hgaps⟩, hexpansions⟩, hruns⟩ := hsettled
  refine settled_of_code (Nat.le_trans hlast hcode)
    (fun gap hmem => not_mem_gap (hgaps gap hmem) hfirst hlast) (fun entry hmem => ?_)
    (fun other hmem => capital?_eq_none (hruns other hmem) hdistance hstep)
  have hgap := not_mem_gap (hexpansions entry hmem) hfirst hlast
  dsimp only at hgap
  omega

theorem toUpper_eq : ∀ n < 0x80, (Char.ofNat n).toUpper = Char.ofNat n ∨
    0x61 ≤ n ∧ n ≤ 0x7A ∧ (Char.ofNat n).toUpper = Char.ofNat (0x41 + (n - 0x61)) := by
  decide

/-- The small letters of ASCII are a run like those of the table. -/
theorem toUpper_settled {c : Char} (hc : c.toNat < 0x80) : c.toUpper = c ∨ Settled c.toUpper := by
  have hascii : (LetterRun.mk 0x61 0x7A 1 0x41).isSettled = true := by decide +kernel
  have hupper := toUpper_eq c.toNat hc
  rw [Char.ofNat_toNat] at hupper
  rcases hupper with hsame | ⟨hfirst, hlast, hcapital⟩
  · exact .inl hsame
  · rw [hcapital]
    exact .inr (LetterRun.settled hascii (Nat.sub_le_sub_right hlast 0x61) (Nat.mod_one _))

/-- A character stands for itself, or what becomes of it is settled. -/
theorem capital_settled (c : Char) : capital c = [c] ∨ ∀ d ∈ capital c, Settled d := by
  by_cases hascii : c.toNat < 0x80
  · rw [capital, if_pos hascii]
    rcases toUpper_settled hascii with hsame | hsettled
    · exact .inl (congrArg ([·]) hsame)
    · exact .inr (List.forall_mem_singleton.2 hsettled)
  rw [capital, if_neg hascii]
  split
  · rename_i expansion hlookup
    right
    obtain ⟨front, back, hentries, -⟩ := List.lookup_eq_some_iff.1 hlookup
    have hentry := List.all_eq_true.1 letterExpansions_settled (c.toNat, expansion) (by simp [hentries])
    intro d hd
    obtain ⟨n, hn, rfl⟩ := List.mem_map.1 hd
    exact LetterRun.settled (List.all_eq_true.1 hentry n hn) (Nat.zero_le _) (Nat.zero_mod _)
  · split
    · rename_i n hfind
      right
      rw [← Array.findSome?_toList] at hfind
      obtain ⟨run, hrun, hcapital⟩ := List.exists_of_findSome?_eq_some hfind
      rw [LetterRun.capital?, Option.ite_none_right_eq_some] at hcapital
      obtain ⟨⟨hfirst, hlast, hstep⟩, hn⟩ := hcapital
      rw [← Option.some.inj hn]
      exact List.forall_mem_singleton.2 (LetterRun.settled
        (List.all_eq_true.1 letterRuns_settled run hrun) (by omega) hstep)
    · exact .inl rfl

/-- No character is lost where letters become capital. -/
theorem capital_ne_nil (c : Char) : capital c ≠ [] := by
  have hexpansions : ∀ entry ∈ letterExpansions, entry.2 ≠ [] := by decide
  unfold capital
  split
  · simp
  · split
    · rename_i expansion hexpansion
      obtain ⟨front, back, hentries, -⟩ := List.lookup_eq_some_iff.1 hexpansion
      have hne := hexpansions (c.toNat, expansion) (by simp [hentries])
      simpa using hne
    · split <;> simp

/-- The capital of a character is not changed by taking capitals again. -/
theorem flatMap_capital (c : Char) : (capital c).flatMap capital = capital c := by
  rcases capital_settled c with hself | hsettled
  · rw [hself, List.flatMap_singleton, hself]
  · rw [List.flatMap_congr fun d hd => (hsettled d hd).capital_eq, List.flatMap_singleton']

/-- A text in capital letters has no small letters left. -/
theorem capitals_capitals (text : String) : capitals (capitals text) = capitals text := by
  rw [capitals, capitals, String.toList_ofList, List.flatMap_assoc]
  exact congrArg String.ofList (List.flatMap_congr fun c _ => flatMap_capital c)

/-- No comma comes up where letters become capital. -/
theorem comma_mem_capitals {text : String} (hcomma : ',' ∈ (capitals text).toList) :
    ',' ∈ text.toList := by
  rw [capitals, String.toList_ofList, List.mem_flatMap] at hcomma
  obtain ⟨c, hc, hcomma⟩ := hcomma
  rcases capital_settled c with hself | hsettled
  · rw [hself, List.mem_singleton] at hcomma
    exact hcomma ▸ hc
  · exact absurd rfl (hsettled _ hcomma).notComma

/-- Neither does a blank. -/
theorem not_isBlank_of_mem_capital {c d : Char} (hc : isBlank c = false) (hd : d ∈ capital c) :
    isBlank d = false := by
  rcases capital_settled c with hself | hsettled
  · rw [hself, List.mem_singleton] at hd
    rwa [hd]
  · exact (hsettled d hd).notBlank

end Candlewick.Text
