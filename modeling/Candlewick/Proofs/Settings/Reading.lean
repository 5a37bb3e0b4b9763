import Candlewick.Proofs.Text.Trimming
import Candlewick.Settings.Ini

namespace Candlewick.Settings

/-- A value that has been cleaned has no blanks around it. -/
theorem trim_clean (cs : List Char) : Text.trim (clean cs) = clean cs := by
  rw [Text.trim, clean, String.toList_ofList, Text.trimmed_trimmed]

/-- The value on a line is cut free of the blanks around it. -/
theorem trim_eq_of_entry {cs : List Char} {key raw : String}
    (hline : Line.ofChars cs = .entry key (some raw)) : Text.trim raw = raw := by
  unfold Line.ofChars at hline
  split at hline
  · cases hline
  · split at hline <;> cases hline
  · split at hline
    · cases hline
    · rename_i value hkey hcut
      simp only [Line.entry.injEq, Option.map_eq_some_iff] at hline
      obtain ⟨-, written, -, rfl⟩ := hline
      exact trim_clean written

namespace Ini

/-- No value of the settings has blanks around it. -/
def Trimmed (ini : Ini) : Prop :=
  ∀ heading key raw, ini.get? heading key = some raw → Text.trim raw = raw

/-- A setting is looked up in its section, and one without a value counts as missing. -/
theorem get?_eq (ini : Ini) (heading key : String) :
    ini.get? heading key =
      (((ini.sections.get? heading).getD Keyed.empty).get? key).join := by
  unfold get?
  cases ini.sections.get? heading <;> rfl

/-- A heading writes no key. -/
theorem get?_withSection (ini : Ini) (heading asked key : String) :
    (ini.withSection heading).get? asked key = ini.get? asked key := by
  rw [get?_eq, get?_eq, withSection, Keyed.get?_put]
  by_cases hsame : asked = heading
  · rw [if_pos hsame, hsame, Option.getD_some]
  · rw [if_neg hsame]

/-- A line with a key writes that key, in the section that it stands in. -/
theorem get?_withEntry (ini : Ini) (heading key : String) (value : Option String)
    (asked askedKey : String) :
    (ini.withEntry heading key value).get? asked askedKey =
      if asked = heading ∧ askedKey = key then value else ini.get? asked askedKey := by
  rw [get?_eq, get?_eq, withEntry, Keyed.get?_put]
  by_cases hsame : asked = heading
  · rw [if_pos hsame, hsame, Option.getD_some, Keyed.get?_put]
    by_cases hkey : askedKey = key
    · rw [if_pos hkey, if_pos ⟨rfl, hkey⟩, Option.join_some]
    · rw [if_neg hkey, if_neg fun hboth => hkey hboth.2]
  · rw [if_neg hsame, if_neg fun hboth => hsame hboth.1]

/-- A new section has no values that could have blanks around them. -/
theorem Trimmed.withSection {ini : Ini} (hini : ini.Trimmed) (heading : String) :
    (ini.withSection heading).Trimmed := by
  intro asked key raw hraw
  rw [get?_withSection] at hraw
  exact hini asked key raw hraw

/-- A value without blanks around it may be put anywhere. -/
theorem Trimmed.withEntry {ini : Ini} (hini : ini.Trimmed) (heading key : String)
    {value : Option String} (hvalue : ∀ raw, value = some raw → Text.trim raw = raw) :
    (ini.withEntry heading key value).Trimmed := by
  intro asked askedKey raw hraw
  rw [get?_withEntry] at hraw
  split at hraw
  · exact hvalue raw hraw
  · exact hini asked askedKey raw hraw

/-- Every line keeps the values without blanks around them. -/
theorem Trimmed.readLines {ini later : Ini} (hini : ini.Trimmed) {heading : String} {number : Nat}
    {lines : List (List Char)} (hlines : Ini.readLines ini heading number lines = .ok later) :
    later.Trimmed := by
  fun_induction Ini.readLines ini heading number lines with
  | case1 ini =>
    cases hlines
    exact hini
  | case2 ini heading number line rest _ ih => exact ih hini hlines
  | case3 ini heading number line rest name _ ih => exact ih (hini.withSection name) hlines
  | case4 ini heading number line rest key value hline ih =>
    refine ih (hini.withEntry heading key fun raw hraw => ?_) hlines
    exact trim_eq_of_entry (hraw ▸ hline)
  | case5 | case6 => cases hlines

/-- No value of settings that were read has blanks around it. -/
theorem trimmed_of_ofText {text : String} {ini : Ini} (hini : ofText text = .ok ini) :
    ini.Trimmed := by
  refine Trimmed.readLines (fun heading key raw hraw => ?_) hini
  rw [get?_eq] at hraw
  cases hraw

end Ini

end Candlewick.Settings
