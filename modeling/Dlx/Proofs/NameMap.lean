import Dlx.NameMap
import Mathlib.Data.List.Nodup

/-!
# Filling tables of names

A table that is filled entry by entry is said at once by its list of entries.

Results:
* `find?_insertAll`: the last of several entries for a name counts.
* `find?_of_mem_entries`, `mem_entries_of_find?`: a table holds an entry exactly if it is found.
* `eq_of_find?`: tables in which every name is found alike are equal.
-/
namespace Dlx

namespace NameMap
variable {α : Type}

/-- Puts values under names, one after the other. -/
def insertAll (m : NameMap α) (entries : List (String × α)) : NameMap α :=
  entries.foldl (fun m e => m.insert e.1 e.2) m

theorem insertAll_append (m : NameMap α) (es es' : List (String × α)) :
    m.insertAll (es ++ es') = (m.insertAll es).insertAll es' :=
  List.foldl_append

theorem find?_insertAll (m : NameMap α) (entries : List (String × α)) (name : String) :
    (m.insertAll entries).find? name = (entries.reverse.lookup name).or (m.find? name) := by
  induction entries generalizing m with
  | nil => rfl
  | cons e es ih =>
    obtain ⟨key, value⟩ := e
    have hcons : m.insertAll ((key, value) :: es) = (m.insert key value).insertAll es := rfl
    rw [hcons, ih, List.reverse_cons, List.lookup_append, Option.or_assoc]
    congr 1
    by_cases h : name = key
    · subst h
      simp
    · have hb : (name == key) = false := by simpa using h
      simp [find?_insert_of_ne _ _ h, List.lookup_cons, hb]

theorem find?_insertAll_eq_none_iff (m : NameMap α) (entries : List (String × α)) (name : String) :
    (m.insertAll entries).find? name = none ↔
      name ∉ entries.map (·.1) ∧ m.find? name = none := by
  rw [find?_insertAll, Option.or_eq_none_iff, List.lookup_eq_none_iff]
  simp only [List.mem_reverse, bne_iff_ne, List.mem_map, not_exists, not_and]
  refine and_congr_left' ⟨fun h e he hn => h e he hn.symm, fun h e he hn => h e he hn.symm⟩

theorem find?_isSome_iff (m : NameMap α) (name : String) :
    (m.find? name).isSome ↔ name ∈ m.entries.map (·.1) := by
  simp [find?, List.find?_isSome]

theorem find?_eq_none_iff (m : NameMap α) (name : String) :
    m.find? name = none ↔ name ∉ m.entries.map (·.1) := by
  rw [← find?_isSome_iff]
  cases m.find? name <;> simp

theorem mem_entries_of_find? {m : NameMap α} {name : String} {value : α}
    (h : m.find? name = some value) : (name, value) ∈ m.entries := by
  unfold find? at h
  obtain ⟨e, he, rfl⟩ := Option.map_eq_some_iff.mp h
  have hname : e.1 = name := by simpa using List.find?_some he
  rw [← hname]
  exact List.mem_of_find?_eq_some he

theorem nodup_names (m : NameMap α) : (m.entries.map (·.1)).Nodup := by
  rw [List.Nodup, List.pairwise_map]
  refine m.sorted.imp ?_
  intro a b hab he
  exact String.lt_irrefl _ (he ▸ hab)

theorem find?_of_mem_entries {m : NameMap α} {name : String} {value : α}
    (h : (name, value) ∈ m.entries) : m.find? name = some value := by
  obtain ⟨v, hv⟩ := Option.isSome_iff_exists.mp
    ((find?_isSome_iff m name).mpr (List.mem_map_of_mem (f := Prod.fst) h))
  have heq := List.inj_on_of_nodup_map (nodup_names m) (mem_entries_of_find? hv) h rfl
  rw [hv, (Prod.mk.inj heq).2]

theorem eq_of_find? {m m' : NameMap α} (h : ∀ name, m.find? name = m'.find? name) : m = m' := by
  have hmem : ∀ e, e ∈ m.entries ↔ e ∈ m'.entries := by
    intro e
    have hname := h e.1
    constructor
    · intro he
      exact mem_entries_of_find? (hname ▸ find?_of_mem_entries he)
    · intro he
      exact mem_entries_of_find? (hname ▸ find?_of_mem_entries he)
  have hperm : m.entries.Perm m'.entries :=
    (List.perm_ext_iff_of_nodup m.nodup_names.of_map m'.nodup_names.of_map).mpr hmem
  have hentries : m.entries = m'.entries := by
    refine hperm.eq_of_pairwise ?_ m.sorted m'.sorted
    intro a b _ _ hab hba
    exact absurd (String.lt_trans hab hba) (String.lt_irrefl _)
  cases m
  cases m'
  simp only [mk.injEq]
  exact hentries

/-- Entering what is there changes nothing. -/
theorem insert_of_find? {m : NameMap α} {name : String} {value : α}
    (h : m.find? name = some value) : m.insert name value = m := by
  refine eq_of_find? fun n => ?_
  by_cases hn : n = name
  · rw [hn, find?_insert_self, h]
  · exact find?_insert_of_ne _ _ hn

theorem insert_insert (m : NameMap α) (name : String) (value value' : α) :
    (m.insert name value).insert name value' = m.insert name value' := by
  refine eq_of_find? fun n => ?_
  by_cases hn : n = name
  · rw [hn, find?_insert_self, find?_insert_self]
  · rw [find?_insert_of_ne _ _ hn, find?_insert_of_ne _ _ hn, find?_insert_of_ne _ _ hn]

theorem insert_comm (m : NameMap α) {name name' : String} (h : name ≠ name') (value value' : α) :
    (m.insert name value).insert name' value' = (m.insert name' value').insert name value := by
  refine eq_of_find? fun n => ?_
  by_cases hn : n = name
  · rw [hn, find?_insert_of_ne _ _ h, find?_insert_self, find?_insert_self]
  · rw [find?_insert_of_ne _ _ hn]
    by_cases hn' : n = name'
    · rw [hn', find?_insert_self, find?_insert_self]
    · rw [find?_insert_of_ne _ _ hn', find?_insert_of_ne _ _ hn', find?_insert_of_ne _ _ hn]

/-- Makes of what is under a name something else. -/
def update (m : NameMap α) (name : String) (f : Option α → α) : NameMap α :=
  m.insert name (f (m.find? name))

theorem find?_update_self (m : NameMap α) (name : String) (f : Option α → α) :
    (m.update name f).find? name = some (f (m.find? name)) :=
  find?_insert_self _ _ _

theorem find?_update_of_ne (m : NameMap α) {name other : String} (f : Option α → α)
    (h : other ≠ name) : (m.update name f).find? other = m.find? other :=
  find?_insert_of_ne _ _ h

theorem update_update (m : NameMap α) (name : String) (f g : Option α → α) :
    (m.update name f).update name g = m.update name fun x => g (some (f x)) := by
  rw [update, find?_update_self, update, insert_insert]
  rfl

theorem update_comm (m : NameMap α) {name name' : String} (h : name ≠ name') (f g : Option α → α) :
    (m.update name f).update name' g = (m.update name' g).update name f := by
  rw [update, find?_update_of_ne m f (Ne.symm h), update, insert_comm m h,
    update, find?_update_of_ne m g h, update]

theorem mem_names_ofList {entries : List (String × α)} {n : String} :
    n ∈ (ofList entries).entries.map (·.1) ↔ n ∈ entries.map (·.1) := by
  have hnone := find?_insertAll_eq_none_iff empty entries n
  rw [← find?_isSome_iff, Option.isSome_iff_ne_none]
  change (empty.insertAll entries).find? n ≠ none ↔ _
  rw [Ne, hnone]
  simp [find?, empty]

end NameMap

end Dlx
