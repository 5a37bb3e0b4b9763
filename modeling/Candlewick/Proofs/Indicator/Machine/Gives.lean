import Candlewick.Proofs.Indicator.Machine

namespace Candlewick.Indicator

open Quantity

/-- The entries from a place on are there and are numbers. -/
def SettledFrom {α : Type} [Quantity α] (place : Nat) (entries : List (Option α)) : Prop :=
  ∀ index < entries.length, place ≤ index →
    ∃ x, entries[index]? = some (some x) ∧ isUndefined x = false

section SettledFrom

variable {α : Type} [Quantity α] {place : Nat}

/-- Entries are settled from a place on if what stands from there on is defined throughout. -/
theorem settledFrom_append {front : List (Option α)} {later : List α}
    (hfront : front.length ≤ place) (hlater : ∀ x ∈ later, isUndefined x = false) :
    SettledFrom place (front ++ later.map some) := by
  intro index hindex hplace
  rw [List.length_append, List.length_map] at hindex
  have hinside : index - front.length < later.length := by omega
  refine ⟨later[index - front.length], ?_, hlater _ (List.getElem_mem hinside)⟩
  rw [List.getElem?_append_right (by omega), List.getElem?_map, List.getElem?_eq_getElem hinside,
    Option.map_some]

theorem settledFrom_of_length_le {entries : List (Option α)} (hlength : entries.length ≤ place) :
    SettledFrom place entries := by
  intro index hindex hplace
  omega

/-- One more entry in front moves the place by one. -/
theorem SettledFrom.cons {entries : List (Option α)} (hplace : 0 < place)
    (h : SettledFrom (place - 1) entries) (first : Option α) : SettledFrom place (first :: entries) := by
  intro index hindex hbehind
  obtain ⟨index, rfl⟩ : ∃ before, index = before + 1 := ⟨index - 1, by omega⟩
  rw [List.length_cons] at hindex
  rw [List.getElem?_cons_succ]
  exact h index (by omega) (by omega)

end SettledFrom

namespace Machine

variable {α β γ ι : Type} [Quantity α]

/-- A computation comes to a value, and the rest holds if all numbers that it keeps are defined. -/
def Gives (computation : Machine α β) (value : β) (settled : Prop) : Prop :=
  ∀ kept, ∃ numbers, computation kept = .ok (value, numbers ++ kept) ∧
    ((∀ x ∈ numbers, isUndefined x = false) → settled)

theorem Gives.imp {computation : Machine α β} {value : β} {settled settled' : Prop}
    (h : Gives computation value settled) (himp : settled → settled') :
    Gives computation value settled' := by
  intro kept
  obtain ⟨numbers, hrun, hsettled⟩ := h kept
  exact ⟨numbers, hrun, fun hdefined => himp (hsettled hdefined)⟩

theorem gives_pure (value : β) : Gives (pure value : Machine α β) value True :=
  fun _ => ⟨[], rfl, fun _ => trivial⟩

/-- A row without entries is given where the places that an entry could have are behind its end. -/
theorem gives_undefined {values : List β} {period place : Nat}
    (hplace : 0 < period → values.length ≤ place) :
    Gives (pure (undefined values) : Machine α (List (Option α))) (undefined values)
      (0 < period → SettledFrom place (undefined values : List (Option α))) := by
  refine (gives_pure _).imp fun _ hperiod => settledFrom_of_length_le ?_
  rw [undefined, List.length_replicate]
  exact hplace hperiod

/-- What the first computation settles is known where the second one begins. -/
theorem Gives.bind {computation : Machine α β} {next : β → Machine α γ} {value : β} {result : γ}
    {settled settled' : Prop} (hfirst : Gives computation value settled)
    (hnext : Gives (next value) result settled') :
    Gives (computation >>= next) result (settled ∧ settled') := by
  intro kept
  obtain ⟨numbers, hrun, hsettled⟩ := hfirst kept
  obtain ⟨numbers', hrun', hsettled'⟩ := hnext (numbers ++ kept)
  refine ⟨numbers' ++ numbers, ?_, ?_⟩
  · rw [List.append_assoc, ← hrun']
    change computation kept >>= _ = _
    rw [hrun]
    rfl
  · intro hdefined
    obtain ⟨hdefined', hdefined⟩ := List.forall_mem_append.1 hdefined
    exact ⟨hsettled hdefined, hsettled' hdefined'⟩

/-- A step that settles nothing of its own. -/
theorem Gives.step {computation : Machine α β} {next : β → Machine α γ} {value : β} {result : γ}
    {settled settled' : Prop} (hfirst : Gives computation value settled)
    (hnext : Gives (next value) result settled') : Gives (computation >>= next) result settled' :=
  (hfirst.bind hnext).imp And.right

theorem gives_plus {a b : Nat} (hword : a + b < wordLimit) :
    Gives (plus a b : Machine α Nat) (a + b) True := by
  rw [plus, if_pos hword]
  exact gives_pure _

/-- A difference is computed as long as it is not below zero. -/
theorem gives_minus {a b : Nat} (hle : b ≤ a) : Gives (minus a b : Machine α Nat) (a - b) True := by
  rw [minus, if_pos hle]
  exact gives_pure _

theorem gives_read {values : List β} {place : Nat} {value : β}
    (hvalue : values[place]? = some value) : Gives (read values place : Machine α β) value True := by
  rw [read, hvalue]
  exact gives_pure _

/-- Writing at the place behind some values. -/
theorem gives_write (front : List β) (old : β) (back : List β) (value : β) :
    Gives (write (front ++ old :: back) front.length value : Machine α (List β))
      (front ++ value :: back) True := by
  have hplace : front.length < (front ++ old :: back).length := by
    rw [List.length_append, List.length_cons]
    omega
  rw [write, if_pos hplace, List.set_append_right _ _ (Nat.le_refl _), Nat.sub_self, List.set_cons_zero]
  exact gives_pure _

/-- The list behind a place is taken as long as the list reaches there. -/
theorem gives_after {values : List β} {place : Nat} (hplace : place ≤ values.length) :
    Gives (after values place : Machine α (List β)) (values.drop place) True := by
  rw [after, if_pos hplace]
  exact gives_pure _

/-- The windows of a width above zero are those of the definition. -/
theorem gives_windows {width : Nat} (hwidth : 0 < width) (values : List β) :
    Gives (windows width values : Machine α (List (List β))) (fullWindows width values) True := by
  rw [windows, if_neg (Nat.ne_of_gt hwidth)]
  exact gives_pure _

/-- A kept value is settled if it is defined, for it is one of the numbers that the machine has come
    to. -/
theorem gives_keep (x : α) : Gives (keep x) x (isUndefined x = false) :=
  fun _ => ⟨[x], rfl, fun hdefined => hdefined x (List.mem_singleton_self x)⟩

/-- A list is computed item by item, and it settles what each of its items does. -/
theorem gives_mapM {f : β → Machine α γ} {g : β → γ} {settled : β → Prop} {items : List β}
    (hf : ∀ item ∈ items, Gives (f item) (g item) (settled item)) :
    Gives (items.mapM f) (items.map g) (∀ item ∈ items, settled item) := by
  induction items with
  | nil => exact (gives_pure []).imp fun _ => List.forall_mem_nil _
  | cons item rest ih =>
    obtain ⟨hitem, hrest⟩ := List.forall_mem_cons.1 hf
    rw [List.mapM_cons, List.map_cons]
    refine Gives.imp (.bind hitem (.bind (ih hrest) (gives_pure _))) ?_
    rintro ⟨hsettled, hlater, -⟩
    exact List.forall_mem_cons.2 ⟨hsettled, hlater⟩

/-- Filling writes one entry for each item, next to each other. -/
theorem gives_fill {place : ι → Machine α Nat} {entry : ι → Machine α α} {f : ι → α}
    {items : List ι} {front blank : List (Option α)} (hlength : blank.length = items.length)
    (hplace : ∀ index item, items[index]? = some item →
      Gives (place item) (front.length + index) True)
    (hentry : ∀ item ∈ items, Gives (entry item) (f item) (isUndefined (f item) = false)) :
    Gives (fill place entry (front ++ blank) items) (front ++ (items.map f).map some)
      (∀ x ∈ items.map f, isUndefined x = false) := by
  induction items generalizing front blank with
  | nil =>
    rw [List.eq_nil_of_length_eq_zero hlength]
    exact (gives_pure _).imp fun _ => List.forall_mem_nil _
  | cons item rest ih =>
    obtain ⟨old, blank, rfl⟩ := List.exists_cons_of_length_eq_add_one hlength
    obtain ⟨hfirst, hlater⟩ := List.forall_mem_cons.1 hentry
    have hhere : Gives (place item) front.length True := hplace 0 item rfl
    have hnext : ∀ index later, rest[index]? = some later →
        Gives (place later) ((front ++ [some (f item)]).length + index) True := by
      intro index later hlater
      rw [List.length_append, List.length_singleton, Nat.add_assoc, Nat.add_comm 1]
      exact hplace (index + 1) later hlater
    have hrest := ih (Nat.succ.inj hlength) hnext hlater
    rw [List.append_assoc, List.append_assoc, List.singleton_append, List.singleton_append] at hrest
    rw [fill, List.map_cons, List.map_cons]
    refine Gives.imp (.bind hfirst (.step hhere (.step (gives_write front old blank _) hrest))) ?_
    rintro ⟨hsettled, hlater⟩
    exact List.forall_mem_cons.2 ⟨hsettled, hlater⟩

end Machine

end Candlewick.Indicator
