import Candlewick.Keyed
import Mathlib.Data.List.Dedup
import Mathlib.Data.List.Induction
import Mathlib.Data.List.Perm.Basic

namespace Candlewick

namespace Keyed

variable {α : Type}

theorem ofList_concat (entries : List (String × α)) (entry : String × α) :
    ofList (entries ++ [entry]) = (ofList entries).put entry.1 entry.2 :=
  List.foldl_concat ..

/-- The last entry of a name is the one that counts. -/
theorem get?_ofList (entries : List (String × α)) (name : String) :
    (ofList entries).get? name = entries.reverse.lookup name := by
  induction entries using List.reverseRecOn with
  | nil => rfl
  | append_singleton entries entry ih =>
    rw [ofList_concat, get?_put, ih, List.reverse_concat, List.lookup_cons]
    by_cases hname : name = entry.1
    · rw [if_pos hname, beq_iff_eq.2 hname]
    · rw [if_neg hname, beq_false_of_ne hname]

/-- A name holds what its last entry says. -/
theorem get?_ofList_eq_some_iff {entries : List (String × α)} {name : String} {value : α} :
    (ofList entries).get? name = some value ↔
      ∃ earlier later, entries = earlier ++ (name, value) :: later ∧
        ∀ entry ∈ later, entry.1 ≠ name := by
  rw [get?_ofList, List.lookup_eq_some_iff]
  constructor
  · rintro ⟨front, back, hentries, hfront⟩
    refine ⟨back.reverse, front.reverse, ?_, fun entry hentry => ?_⟩
    · rw [← List.reverse_reverse entries, hentries]
      simp
    · have hne := hfront entry (List.mem_reverse.1 hentry)
      exact fun hsame => by simp [hsame] at hne
  · rintro ⟨earlier, later, rfl, hlater⟩
    refine ⟨later.reverse, earlier.reverse, by simp, fun entry hentry => ?_⟩
    simpa using (hlater entry (List.mem_reverse.1 hentry)).symm

theorem mem_names_iff {table : Keyed α} {name : String} :
    name ∈ table.names ↔ (table.get? name).isSome := by
  rw [get?, List.lookup_isSome_iff, names, List.mem_map]
  simp only [beq_iff_eq, @eq_comm _ name]

theorem nodup_names (table : Keyed α) : table.names.Nodup :=
  List.pairwise_map.2 (table.ascending.imp Std.ne_of_lt)

/-- The names of a table are those of the entries that it was filled from. -/
theorem mem_names_ofList_iff {entries : List (String × α)} {name : String} :
    name ∈ (ofList entries).names ↔ name ∈ entries.map (·.1) := by
  induction entries using List.reverseRecOn with
  | nil => rfl
  | append_singleton entries entry ih =>
    rw [mem_names_iff] at ih ⊢
    rw [ofList_concat, get?_put, List.map_append, List.mem_append, ← ih]
    by_cases hname : name = entry.1
    · simp [hname]
    · simp [hname]

/-- No entry of a list is lost in its table exactly when no two of them have one name. -/
theorem size_ofList_eq_length_iff (entries : List (String × α)) :
    (ofList entries).size = entries.length ↔ (entries.map (·.1)).Nodup := by
  have hsame : (ofList entries).names.Perm (entries.map (·.1)).dedup := by
    refine (List.perm_ext_iff_of_nodup (nodup_names _) (List.nodup_dedup _)).2 fun name => ?_
    rw [mem_names_ofList_iff, List.mem_dedup]
  have hsize : (ofList entries).size = (entries.map (·.1)).dedup.length := by
    rw [← hsame.length_eq, names, List.length_map, size]
  have hlength : (entries.map (·.1)).length = entries.length := List.length_map _
  rw [hsize, ← hlength, (List.dedup_sublist _).length_eq, List.dedup_eq_self]

end Keyed

end Candlewick
