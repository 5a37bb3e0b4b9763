namespace Candlewick

/-- A table of values under names. The names are distinct and in ascending order. -/
structure Keyed (α : Type) where
  entries : List (String × α)
  ascending : entries.Pairwise fun earlier later => earlier.1 < later.1

namespace Keyed

variable {α : Type}

/-- The table without entries. -/
def empty : Keyed α := ⟨[], .nil⟩

instance : EmptyCollection (Keyed α) := ⟨empty⟩

/-- The value under a name. -/
def get? (table : Keyed α) (name : String) : Option α :=
  table.entries.lookup name

/-- Whether a name is in use. -/
def contains (table : Keyed α) (name : String) : Bool :=
  (table.get? name).isSome

/-- The entries with one of them written, in its place in the order. -/
def inserted (name : String) (value : α) : List (String × α) → List (String × α)
  | [] => [(name, value)]
  | (other, held) :: rest =>
    if name == other then
      (name, value) :: rest
    else if name < other then
      (name, value) :: (other, held) :: rest
    else
      (other, held) :: inserted name value rest

theorem eq_or_mem_of_mem_inserted {name : String} {value : α} {entry : String × α}
    {entries : List (String × α)} (h : entry ∈ inserted name value entries) :
    entry = (name, value) ∨ entry ∈ entries := by
  induction entries with
  | nil => exact .inl (List.mem_singleton.1 h)
  | cons first rest ih => grind [inserted]

/-- A write keeps the names distinct and in order. -/
theorem ascending_inserted {entries : List (String × α)}
    (h : entries.Pairwise fun earlier later => earlier.1 < later.1) (name : String) (value : α) :
    (inserted name value entries).Pairwise fun earlier later => earlier.1 < later.1 := by
  induction entries with
  | nil => exact List.pairwise_singleton _ _
  | cons first rest ih =>
    obtain ⟨hfirst, hrest⟩ := List.pairwise_cons.1 h
    rw [inserted]
    by_cases hsame : name = first.1
    · rw [if_pos (beq_iff_eq.2 hsame)]
      exact List.pairwise_cons.2 ⟨fun entry hentry => hsame ▸ hfirst entry hentry, hrest⟩
    · rw [if_neg (mt beq_iff_eq.1 hsame)]
      by_cases hless : name < first.1
      · rw [if_pos hless]
        refine List.pairwise_cons.2 ⟨fun entry hentry => ?_, h⟩
        rcases List.mem_cons.1 hentry with rfl | hlater
        · exact hless
        · exact String.lt_trans hless (hfirst entry hlater)
      · rw [if_neg hless]
        refine List.pairwise_cons.2 ⟨fun entry hentry => ?_, ih hrest⟩
        rcases eq_or_mem_of_mem_inserted hentry with rfl | hlater
        · exact Std.lt_of_le_of_ne (String.not_lt.1 hless) (Ne.symm hsame)
        · exact hfirst entry hlater

/-- The table with a value written under a name, in place of what the name held. -/
def put (table : Keyed α) (name : String) (value : α) : Keyed α :=
  ⟨inserted name value table.entries, ascending_inserted table.ascending name value⟩

/-- The table of a list of entries; a later entry replaces an earlier one of its name. -/
def ofList (entries : List (String × α)) : Keyed α :=
  entries.foldl (fun table (name, value) => table.put name value) empty

/-- The names in use, in ascending order. -/
def names (table : Keyed α) : List String :=
  table.entries.map (·.1)

/-- The number of entries. -/
def size (table : Keyed α) : Nat :=
  table.entries.length

/-- Whether no name is in use. -/
def isEmpty (table : Keyed α) : Bool :=
  table.entries.isEmpty

@[simp] theorem get?_empty (name : String) : (empty : Keyed α).get? name = none := rfl

/-- After an insertion the name holds the new value, and every other name what it held before. -/
theorem lookup_inserted (name other : String) (value : α) (entries : List (String × α)) :
    (inserted name value entries).lookup other =
      if other = name then some value else entries.lookup other := by
  induction entries with
  | nil => grind [inserted]
  | cons entry rest ih => grind [inserted]

/-- A write is read back under its name and changes no other name. -/
@[simp] theorem get?_put (table : Keyed α) (name other : String) (value : α) :
    (table.put name value).get? other = if other = name then some value else table.get? other :=
  lookup_inserted name other value table.entries

/-- A name in front of all names of a list is not found in it. -/
theorem lookup_eq_none_of_lt {name : String} {entries : List (String × α)}
    (hname : ∀ entry ∈ entries, name < entry.1) : entries.lookup name = none := by
  apply List.lookup_eq_none_iff.2
  intro entry hentry
  have hne : name ≠ entry.1 := Std.ne_of_lt (hname entry hentry)
  simpa using hne

/-- The first name of a table in order is not below the first name of another one that holds the
    same. -/
theorem not_lt_of_lookup_eq {name name' : String} {value value' : α}
    {rest rest' : List (String × α)} (hrest' : ∀ entry ∈ rest', name' < entry.1)
    (hlookup : ((name, value) :: rest).lookup name = ((name', value') :: rest').lookup name) :
    ¬ name < name' := by
  intro hless
  have hnone : ((name', value') :: rest').lookup name = none := by
    apply lookup_eq_none_of_lt
    intro entry hentry
    rcases List.mem_cons.1 hentry with rfl | hlater
    · exact hless
    · exact String.lt_trans hless (hrest' entry hlater)
  rw [hnone, List.lookup_cons_self] at hlookup
  cases hlookup

/-- Entries in ascending order are determined by what they hold under each name. -/
theorem eq_of_lookup_eq {one other : List (String × α)}
    (hone : one.Pairwise fun earlier later => earlier.1 < later.1)
    (hother : other.Pairwise fun earlier later => earlier.1 < later.1)
    (hlookup : ∀ name, one.lookup name = other.lookup name) : one = other := by
  induction one generalizing other with
  | nil =>
    cases other with
    | nil => rfl
    | cons entry rest =>
      have hfirst := hlookup entry.1
      rw [List.lookup_cons_self] at hfirst
      cases hfirst
  | cons entry rest ih =>
    cases other with
    | nil =>
      have hfirst := hlookup entry.1
      rw [List.lookup_cons_self] at hfirst
      cases hfirst
    | cons entry' rest' =>
      obtain ⟨name, value⟩ := entry
      obtain ⟨name', value'⟩ := entry'
      obtain ⟨hfirst, hrest⟩ := List.pairwise_cons.1 hone
      obtain ⟨hfirst', hrest'⟩ := List.pairwise_cons.1 hother
      have hname : name = name' := by
        apply String.le_antisymm
        · exact String.not_lt.1 (not_lt_of_lookup_eq hfirst (hlookup name').symm)
        · exact String.not_lt.1 (not_lt_of_lookup_eq hfirst' (hlookup name))
      subst hname
      have hvalue : value = value' := by simpa using hlookup name
      subst hvalue
      refine congrArg _ (ih hrest hrest' ?_)
      intro other
      by_cases hsame : other = name
      · subst hsame
        rw [lookup_eq_none_of_lt hfirst, lookup_eq_none_of_lt hfirst']
      · have hother := hlookup other
        rw [List.lookup_cons, List.lookup_cons, beq_false_of_ne hsame] at hother
        exact hother

/-- A table is what it holds under each name. -/
theorem ext_get? {one other : Keyed α} (hget : ∀ name, one.get? name = other.get? name) :
    one = other := by
  obtain ⟨entries, hone⟩ := one
  obtain ⟨entries', hother⟩ := other
  congr 1
  exact eq_of_lookup_eq hone hother hget

end Keyed

end Candlewick
