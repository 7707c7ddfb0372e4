/-!
# Tables ordered by name

A `NameMap` holds one value per name, in ascending order of the names (by code point). Because the
order is part of the type, two tables with the same contents are equal.

Results:
* `find?_insert_self`, `find?_insert_of_ne`: what an insertion changes and what it leaves.
-/
namespace Dlx

structure NameMap (α : Type) where
  entries : List (String × α)
  sorted : entries.Pairwise (fun a b => a.1 < b.1)

namespace NameMap

variable {α : Type}

def empty : NameMap α := ⟨[], .nil⟩

/-- Puts a value under a name, in place of the one already there. -/
def insertEntry (name : String) (value : α) : List (String × α) → List (String × α)
  | [] => [(name, value)]
  | entry :: rest =>
    if name < entry.1 then (name, value) :: entry :: rest
    else if name = entry.1 then (name, value) :: rest
    else entry :: insertEntry name value rest

theorem mem_insertEntry {name : String} {value : α} {entries : List (String × α)} {e : String × α}
    (h : e ∈ insertEntry name value entries) : e = (name, value) ∨ e ∈ entries := by
  induction entries with
  | nil => simpa [insertEntry] using h
  | cons entry rest ih =>
    simp only [insertEntry] at h
    split at h
    · simpa using h
    · split at h
      · rcases List.mem_cons.mp h with h | h
        · exact .inl h
        · exact .inr (List.mem_cons_of_mem _ h)
      · rcases List.mem_cons.mp h with h | h
        · exact .inr (h ▸ List.mem_cons_self)
        · exact (ih h).imp_right (List.mem_cons_of_mem _)

theorem lt_of_not_lt_of_ne {a b : String} (h : ¬ a < b) (hne : a ≠ b) : b < a := by
  rcases Decidable.em (b < a) with hlt | hlt
  · exact hlt
  · exact absurd (String.le_antisymm (String.not_lt.mp hlt) (String.not_lt.mp h)) hne

theorem sorted_insertEntry (name : String) (value : α) {entries : List (String × α)}
    (h : entries.Pairwise (fun a b => a.1 < b.1)) :
    (insertEntry name value entries).Pairwise (fun a b => a.1 < b.1) := by
  induction entries with
  | nil => simp [insertEntry]
  | cons entry rest ih =>
    obtain ⟨hhead, hrest⟩ := List.pairwise_cons.mp h
    simp only [insertEntry]
    split
    · next hlt =>
      refine List.pairwise_cons.mpr ⟨?_, h⟩
      intro e he
      rcases List.mem_cons.mp he with rfl | he
      · exact hlt
      · exact String.lt_trans hlt (hhead e he)
    · next hnlt =>
      split
      · next heq =>
        exact List.pairwise_cons.mpr ⟨fun e he => heq ▸ hhead e he, hrest⟩
      · next hne =>
        refine List.pairwise_cons.mpr ⟨?_, ih hrest⟩
        intro e he
        rcases mem_insertEntry he with rfl | he
        · exact lt_of_not_lt_of_ne hnlt hne
        · exact hhead e he

def insert (m : NameMap α) (name : String) (value : α) : NameMap α :=
  ⟨insertEntry name value m.entries, sorted_insertEntry name value m.sorted⟩

def find? (m : NameMap α) (name : String) : Option α :=
  (m.entries.find? (·.1 = name)).map (·.2)

def contains (m : NameMap α) (name : String) : Bool := (m.find? name).isSome

def ofList (entries : List (String × α)) : NameMap α :=
  entries.foldl (fun m e => m.insert e.1 e.2) empty

theorem find?_insertEntry_self (name : String) (value : α) (entries : List (String × α)) :
    (insertEntry name value entries).find? (·.1 = name) = some (name, value) := by
  induction entries with
  | nil => simp [insertEntry]
  | cons entry rest ih =>
    simp only [insertEntry]
    split
    · simp
    · split
      · simp
      · next hne => simpa [Ne.symm hne] using ih

theorem find?_insertEntry_of_ne {name other : String} (value : α) (entries : List (String × α))
    (h : other ≠ name) :
    (insertEntry name value entries).find? (·.1 = other) = entries.find? (·.1 = other) := by
  induction entries with
  | nil => simp [insertEntry, Ne.symm h]
  | cons entry rest ih =>
    simp only [insertEntry]
    split
    · simp [Ne.symm h]
    · split
      · next heq => simp [Ne.symm h, ← heq]
      · simp only [List.find?_cons, ih]

@[simp] theorem find?_insert_self (m : NameMap α) (name : String) (value : α) :
    (m.insert name value).find? name = some value := by
  simp [find?, insert, find?_insertEntry_self]

theorem find?_insert_of_ne (m : NameMap α) {name other : String} (value : α) (h : other ≠ name) :
    (m.insert name value).find? other = m.find? other := by
  simp [find?, insert, find?_insertEntry_of_ne _ _ h]

end NameMap

end Dlx
