import Candlewick.Proofs.Keyed.Filling
import Candlewick.Proofs.Settings.Acceptance

namespace Candlewick.Settings.Ini

variable {ini : Ini}

/-- The positions are filled in from the sections, the last of which overwrites those before it. -/
theorem positions_eq (ini : Ini) :
    ini.positions = Keyed.ofList (ini.positionSections.map fun place =>
      (Symbols.normal place.2, ini.position place.1 place.2)) := by
  rw [positionSections, List.map_filterMap]
  simp only [Option.map_map]
  rfl

/-- The names under which the positions of the sections are kept. -/
def positionNames (ini : Ini) : List String :=
  ini.positionSections.map fun place => Symbols.normal place.2

/-- There is a position for each section exactly if no two are kept under one name. -/
theorem size_positions_eq_iff (ini : Ini) :
    ini.positions.size = ini.positionSections.length ↔ ini.positionNames.Nodup := by
  have hsize := Keyed.size_ofList_eq_length_iff (ini.positionSections.map fun place =>
    (Symbols.normal place.2, ini.position place.1 place.2))
  rw [List.length_map, List.map_map] at hsize
  rw [positions_eq]
  exact hsize

/-- The last section of a symbol counts. -/
theorem get?_positions_of_last {earlier later : List (String × String)} {heading symbol : String}
    (hplaces : ini.positionSections = earlier ++ (heading, symbol) :: later)
    (hlast : ∀ place ∈ later, Symbols.normal place.2 ≠ Symbols.normal symbol) :
    ini.positions.get? (Symbols.normal symbol) = some (ini.position heading symbol) := by
  rw [positions_eq, hplaces, List.map_append, List.map_cons]
  refine Keyed.get?_ofList_eq_some_iff.2 ⟨_, _, rfl, fun entry hentry => ?_⟩
  obtain ⟨place, hplace, rfl⟩ := List.mem_map.1 hentry
  exact hlast place hplace

/-- Every position is that of a section. -/
theorem exists_mem_of_get?_positions {name : String} {position : Position}
    (hposition : ini.positions.get? name = some position) :
    ∃ place ∈ ini.positionSections,
      Symbols.normal place.2 = name ∧ ini.position place.1 place.2 = position := by
  rw [positions_eq] at hposition
  obtain ⟨earlier, later, hentries, -⟩ := Keyed.get?_ofList_eq_some_iff.1 hposition
  have hmem : (name, position) ∈ ini.positionSections.map fun place =>
      (Symbols.normal place.2, ini.position place.1 place.2) := by
    rw [hentries]
    exact List.mem_append_right _ List.mem_cons_self
  obtain ⟨place, hplace, hentry⟩ := List.mem_map.1 hmem
  exact ⟨place, hplace, Prod.mk.inj hentry⟩

/-- Where no two sections are kept under one name, each is the last for its own. -/
theorem last_of_nodup {earlier later : List (String × String)} {place : String × String}
    (hplaces : ini.positionSections = earlier ++ place :: later)
    (hnames : ini.positionNames.Nodup) :
    ∀ other ∈ later, Symbols.normal other.2 ≠ Symbols.normal place.2 := by
  intro other hother hsame
  rw [positionNames, hplaces, List.map_append, List.map_cons] at hnames
  have hfirst := (List.nodup_cons.1 (List.nodup_append.1 hnames).2.1).1
  exact hfirst (List.mem_map.2 ⟨other, hother, hsame⟩)

/-- Settings that pass the checks give one position for each section exactly when no two symbols are
    kept alike, and each section then describes the position under its symbol. In any case there is
    a position under every symbol, described by the last section that has the symbol, and no other
    position. -/
theorem positions_described (hvalid : ini.validate = .ok ()) :
    (ini.positions.size = ini.positionSections.length ↔ ini.positionNames.Nodup) ∧
    (ini.positionNames.Nodup → ∀ place ∈ ini.positionSections,
      ∃ position, ini.positions.get? (Symbols.normal place.2) = some position ∧
        ini.Describes place.1 place.2 position) ∧
    (∀ earlier place later, ini.positionSections = earlier ++ place :: later →
      (∀ other ∈ later, Symbols.normal other.2 ≠ Symbols.normal place.2) →
        ∃ position, ini.positions.get? (Symbols.normal place.2) = some position ∧
          ini.Describes place.1 place.2 position) ∧
    ∀ name position, ini.positions.get? name = some position →
      ∃ place ∈ ini.positionSections,
        Symbols.normal place.2 = name ∧ ini.Describes place.1 place.2 position := by
  have haccepts := (validate_eq_ok_iff.1 hvalid).positions
  have hlast : ∀ earlier place later, ini.positionSections = earlier ++ place :: later →
      (∀ other ∈ later, Symbols.normal other.2 ≠ Symbols.normal place.2) →
        ∃ position, ini.positions.get? (Symbols.normal place.2) = some position ∧
          ini.Describes place.1 place.2 position := by
    intro earlier place later hplaces hlater
    have hplace := haccepts place (by simp [hplaces])
    exact ⟨_, get?_positions_of_last hplaces hlater, hplace.describes⟩
  refine ⟨size_positions_eq_iff ini, fun hnames place hmem => ?_, hlast,
    fun name position hposition => ?_⟩
  · obtain ⟨earlier, later, hplaces⟩ := List.append_of_mem hmem
    exact hlast earlier place later hplaces (last_of_nodup hplaces hnames)
  · obtain ⟨place, hmem, hname, rfl⟩ := exists_mem_of_get?_positions hposition
    exact ⟨place, hmem, hname, (haccepts place hmem).describes⟩

/-- Two sections that name two symbols, one of them with a blank in front and in small letters. -/
theorem positions_described_two :
    let ini : Ini := ⟨⟨[("data", ⟨[("directory", some "d"), ("symbols", some "BTC")], by decide⟩),
      ("position. btc", ⟨[("side", some "long"), ("size", some "1.5")], by decide⟩),
      ("position.ETH", ⟨[("entry_price", some "20.5"), ("side", some "Short"),
        ("size", some "2")], by decide⟩)], by decide⟩⟩
    ini.validate = .ok () ∧ ini.positionNames = ["BTC", "ETH"] ∧ ini.positions.size = 2 ∧
      ∃ position, ini.positions.get? "BTC" = some position ∧
        ini.Describes "position. btc" " btc" position := by
  intro ini
  have hvalid : ini.validate = .ok () := by decide +kernel
  have hsections : ini.positionSections = [("position. btc", " btc"), ("position.ETH", "ETH")] := by
    decide +kernel
  have hsymbol : Symbols.normal " btc" = "BTC" := by decide +kernel
  have hnames : ini.positionNames = ["BTC", "ETH"] := by
    rw [positionNames, hsections]
    decide +kernel
  have hdistinct : ini.positionNames.Nodup := by simp [hnames]
  obtain ⟨hsize, hdescribed, -, -⟩ := positions_described hvalid
  rw [hsections] at hsize hdescribed
  have hposition := hdescribed hdistinct _ List.mem_cons_self
  rw [hsymbol] at hposition
  exact ⟨hvalid, hnames, hsize.2 hdistinct, hposition⟩

/-- Two sections whose symbols differ in the case of their letters pass the checks, and give one
    position. -/
theorem two_sections_one_position :
    ∃ ini, ofText ("[data]\ndirectory = d\nsymbols = BTC\n" ++
        "[position.BTC]\nsize = 1\nside = long\n[position.btc]\nsize = 2\nside = short") =
        .ok ini ∧
      ini.validate = .ok () ∧
      ini.positionSections = [("position.BTC", "BTC"), ("position.btc", "btc")] ∧
      ini.positions.size = 1 := by
  refine ⟨⟨⟨[("data", ⟨[("directory", some "d"), ("symbols", some "BTC")], by decide⟩),
    ("position.BTC", ⟨[("side", some "long"), ("size", some "1")], by decide⟩),
    ("position.btc", ⟨[("side", some "short"), ("size", some "2")], by decide⟩)], by decide⟩⟩,
    ?_, ?_, ?_, ?_⟩
  · rfl
  · decide +kernel
  · decide +kernel
  · decide +kernel

end Candlewick.Settings.Ini
