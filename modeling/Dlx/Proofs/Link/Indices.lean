import Dlx.Proofs.Elf.Indices
import Dlx.Proofs.Link.Failures
import Dlx.Proofs.Link.Files

/-!
# Indices in a link

A link keeps a table with a row for each object and in it an entry for each section. The entries
are filled while the sections are laid out, and then every symbol takes its address from the entry
of its section, by an index from the object file. Here the link is written down with this table, so
that an index can be outside. For objects that were read from files none is.

Results:
* `exists_table`: the layout fills the table, each entry with the placement of its section.
* `link_inside`: a link of objects whose symbols are in their sections uses no index outside.
* `files_never_index_outside`: no bytes make the reader or the link use an index outside.
-/
namespace Dlx.Linker

/-! ## The table of placements -/

/-- The entry of the section with both indices; it is `none` until the section is placed. -/
abbrev PlacementTable := List (List (Option Placement))

def blankTable (objects : List (Object UInt32)) : PlacementTable :=
  objects.map fun o => List.replicate o.sections.length none

def storePlacement (t : PlacementTable) (k i : Nat) (p : Placement) :
    Except (Stopped LinkError) PlacementTable := do
  storeAt t k (← storeAt (← entryAt t k) i (some p))

/-- Enters the placements of sections in the order in which they are laid out. -/
def fillTable (base : UInt32) :
    List Placed → PlacementTable → Except (Stopped LinkError) PlacementTable
  | [], t => .ok t
  | p :: rest, t => do
    fillTable base rest (← storePlacement t p.sect.object p.sect.index (p.placement base))

def placementAt (t : PlacementTable) (k i : Nat) :
    Except (Stopped LinkError) (Option Placement) := do
  entryAt (← entryAt t k) i

/-! ## Linking with the table -/

def enterSymbolIndexed (t : PlacementTable) (k : Nat) (globals locals : NameMap UInt32)
    (s : Symbol) : Except (Stopped LinkError) (NameMap UInt32 × NameMap UInt32) :=
  match s.home with
  | none => .ok (globals, locals)
  | some index => do
    match ← placementAt t k index with
    | none => return (globals, locals)
    | some p =>
      let address := p.address + s.value
      if !s.isGlobal then return (globals, locals.insert s.name address)
      else if globals.contains s.name then throw (.failed (.duplicateSymbol s.name))
      else return (globals.insert s.name address, locals)

def enterSymbolsIndexed (t : PlacementTable) (k : Nat) :
    List Symbol → NameMap UInt32 → NameMap UInt32 →
      Except (Stopped LinkError) (NameMap UInt32 × NameMap UInt32)
  | [], globals, locals => .ok (globals, locals)
  | s :: rest, globals, locals => do
    let (globals, locals) ← enterSymbolIndexed t k globals locals s
    enterSymbolsIndexed t k rest globals locals

def collectIndexed (t : PlacementTable) (k : Nat) :
    List (Object UInt32) → NameMap UInt32 → Except (Stopped LinkError) Addresses
  | [], globals => .ok ⟨globals, []⟩
  | o :: rest, globals => do
    let (globals, locals) ← enterSymbolsIndexed t k o.symbols globals .empty
    let more ← collectIndexed t (k + 1) rest globals
    return { more with locals := locals :: more.locals }

def planSectionsIndexed (t : PlacementTable) (k : Nat) (lookup : String → Option UInt32)
    (index : Nat) : List (Section UInt32) → Except (Stopped LinkError) (List Patch)
  | [] => .ok []
  | s :: rest => do
    let patches ← match ← placementAt t k index with
      | some p => (plan p lookup s.relocs).mapError .failed
      | none => pure []
    return patches ++ (← planSectionsIndexed t k lookup (index + 1) rest)

/-- Plans the objects from the one with this index on. The table of its local symbols has the same
index. -/
def planObjectsIndexed (t : PlacementTable) (a : Addresses) (k : Nat) :
    List (Object UInt32) → Except (Stopped LinkError) (List Patch)
  | [] => .ok []
  | o :: rest => do
    let locals ← entryAt a.locals k
    let patches ← planSectionsIndexed t k (a.lookup locals) 0 o.sections
    return patches ++ (← planObjectsIndexed t a (k + 1) rest)

/-- Links everything that was added, with every index into a table. -/
def linkIndexed (l : Linker) (options : LinkSettings) : Except (Stopped LinkError) Image := do
  let layout := layout l.objects
  let t ← fillTable options.base layout.all (blankTable l.objects)
  let addresses ← collectIndexed t 0 l.objects l.absolutes
  let patches ← planObjectsIndexed t addresses 0 l.objects
  let bytes ← (applyPatches layout.bytes patches).mapError .failed
  let entry ← (entryAddress addresses.globals options).mapError .failed
  return ⟨options.base, entry, UInt32.ofNat layout.textSize, bytes, addresses.globals⟩

/-! ## Filling the table -/

/-- What stands in the table under two indices, if it has them. -/
def PlacementTable.cell? (t : PlacementTable) (k i : Nat) : Option (Option Placement) :=
  t[k]?.bind (·[i]?)

theorem placementAt_of_cell? {t : PlacementTable} {k i : Nat} {entry : Option Placement}
    (h : t.cell? k i = some entry) : placementAt t k i = .ok entry := by
  obtain ⟨row, hrow, hentry⟩ := Option.bind_eq_some_iff.mp h
  rw [placementAt, entryAt_of_getElem? hrow]
  exact entryAt_of_getElem? hentry

theorem cell?_blankTable {objects : List (Object UInt32)} {k i : Nat} {o : Object UInt32}
    {s : Section UInt32} (ho : objects[k]? = some o) (hs : o.sections[i]? = some s) :
    (blankTable objects).cell? k i = some none := by
  have hlt : i < o.sections.length := (List.getElem?_eq_some_iff.mp hs).1
  simp [PlacementTable.cell?, blankTable, ho, hlt]

/-- A store changes the entry that it is for, and no other. -/
theorem storePlacement_of_cell? {t : PlacementTable} {k i : Nat} {entry : Option Placement}
    (h : t.cell? k i = some entry) (p : Placement) :
    ∃ t', storePlacement t k i p = .ok t' ∧ t'.cell? k i = some (some p) ∧
      ∀ k' i', (k', i') ≠ (k, i) → t'.cell? k' i' = t.cell? k' i' := by
  obtain ⟨row, hrow, hentry⟩ := Option.bind_eq_some_iff.mp h
  have hk : k < t.length := (List.getElem?_eq_some_iff.mp hrow).1
  have hi : i < row.length := (List.getElem?_eq_some_iff.mp hentry).1
  refine ⟨t.set k (row.set i (some p)), ?_, ?_, ?_⟩
  · rw [storePlacement, entryAt_of_getElem? hrow]
    refine (congrArg (· >>= _) (storeAt_of_lt hi _)).trans ?_
    exact storeAt_of_lt hk _
  · simp [PlacementTable.cell?, hk, hi]
  · intro k' i' hne
    unfold PlacementTable.cell?
    by_cases hk' : k = k'
    · subst hk'
      have hi' : i ≠ i' := fun h => hne (by rw [h])
      rw [List.getElem?_set_self hk, hrow]
      simp [hi']
    · rw [List.getElem?_set_ne hk']

/-- Each section that is laid out gets its entry, if the table has room for it. -/
theorem fillTable_of_cell? (base : UInt32) {ps : List Placed} {t : PlacementTable}
    (hroom : ∀ p ∈ ps, (t.cell? p.sect.object p.sect.index).isSome)
    (hnodup : (ps.map (·.sect.key)).Nodup) :
    ∃ t', fillTable base ps t = .ok t' ∧
      (∀ p ∈ ps, t'.cell? p.sect.object p.sect.index = some (some (p.placement base))) ∧
      ∀ k i, (k, i) ∉ ps.map (·.sect.key) → t'.cell? k i = t.cell? k i := by
  induction ps generalizing t with
  | nil => exact ⟨t, rfl, List.forall_mem_nil _, fun _ _ _ => rfl⟩
  | cons p rest ih =>
    obtain ⟨hp, hrest⟩ := List.forall_mem_cons.mp hroom
    rw [List.map_cons, List.nodup_cons] at hnodup
    obtain ⟨entry, hentry⟩ := Option.isSome_iff_exists.mp hp
    obtain ⟨t₁, hstore, hself, hother⟩ := storePlacement_of_cell? hentry (p.placement base)
    have hkey : ∀ q ∈ rest, (q.sect.object, q.sect.index) ≠ (p.sect.object, p.sect.index) :=
      fun q hq heq => hnodup.1 (List.mem_map.mpr ⟨q, hq, heq⟩)
    have hroom₁ : ∀ q ∈ rest, (t₁.cell? q.sect.object q.sect.index).isSome := by
      intro q hq
      rw [hother _ _ (hkey q hq)]
      exact hrest q hq
    obtain ⟨t', hfill, hplaced, hframe⟩ := ih hroom₁ hnodup.2
    refine ⟨t', Except.bind_eq_ok_iff.mpr ⟨t₁, hstore, hfill⟩, ?_, ?_⟩
    · refine List.forall_mem_cons.mpr ⟨?_, hplaced⟩
      rw [hframe _ _ hnodup.1, hself]
    · intro k i hki
      rw [List.map_cons, List.mem_cons, not_or] at hki
      rw [hframe k i hki.2, hother k i hki.1]

/-- Every section of every object has an entry, and it is where the section is placed. -/
def Complete (t : PlacementTable) (objects : List (Object UInt32)) (base : UInt32) : Prop :=
  ∀ (k : Nat) (o : Object UInt32), objects[k]? = some o →
    ∀ (i : Nat) (s : Section UInt32), o.sections[i]? = some s →
      ∃ p, t.cell? k i = some (some p) ∧ (layout objects).placement? base k i = some p ∧
        p.length = s.data.length

theorem exists_table (objects : List (Object UInt32)) (base : UInt32) :
    ∃ t, fillTable base (layout objects).all (blankTable objects) = .ok t ∧
      Complete t objects base := by
  have hroom : ∀ p ∈ (layout objects).all,
      ((blankTable objects).cell? p.sect.object p.sect.index).isSome := by
    intro p hp
    obtain ⟨o, ho, hs⟩ := mem_allSections.mp (mem_layout.mp ⟨p, hp, rfl⟩)
    rw [cell?_blankTable ho hs]
    rfl
  obtain ⟨t, hfill, hplaced, -⟩ := fillTable_of_cell? base hroom (layout_keys_nodup objects)
  refine ⟨t, hfill, fun k o ho i s hs => ?_⟩
  obtain ⟨p, hp, hsect⟩ := exists_placed ho hs
  have hcell := hplaced p hp
  rw [hsect] at hcell
  refine ⟨p.placement base, hcell, placement?_eq_some_iff.mpr ⟨p, hp, ?_, rfl⟩, ?_⟩
  · rw [hsect]
    rfl
  · rw [Placed.placement, hsect]

/-! ## The same link -/

/-- The table has the placement of the section that a symbol is in. -/
def HomesEntered (t : PlacementTable) (place : Nat → Option Placement) (k : Nat)
    (symbols : List Symbol) : Prop :=
  ∀ s ∈ symbols, ∀ i, s.home = some i → ∃ p, t.cell? k i = some (some p) ∧ place i = some p

theorem enterSymbol_inside {t : PlacementTable} {place : Nat → Option Placement} {k : Nat}
    {s : Symbol} (h : ∀ i, s.home = some i → ∃ p, t.cell? k i = some (some p) ∧ place i = some p)
    (globals locals : NameMap UInt32) :
    Inside (fun out out' => out' = out) (enterSymbol place globals locals s)
      (enterSymbolIndexed t k globals locals s) := by
  unfold enterSymbol enterSymbolIndexed
  cases hhome : s.home with
  | none => exact .ok rfl
  | some i =>
    obtain ⟨p, hcell, hplace⟩ := h i hhome
    simp only [hplace, placementAt_of_cell? hcell, bind, Except.bind]
    split
    · exact .ok rfl
    · split
      · exact .error rfl
      · exact .ok rfl

theorem enterSymbols_inside {t : PlacementTable} {place : Nat → Option Placement} {k : Nat}
    {symbols : List Symbol} (h : HomesEntered t place k symbols) (globals locals : NameMap UInt32) :
    Inside (fun out out' => out' = out) (enterSymbols place symbols globals locals)
      (enterSymbolsIndexed t k symbols globals locals) := by
  induction symbols generalizing globals locals with
  | nil => exact .ok rfl
  | cons s rest ih =>
    obtain ⟨hs, hrest⟩ := List.forall_mem_cons.mp h
    refine (enterSymbol_inside hs globals locals).bind_same fun out _ => ?_
    exact ih hrest out.1 out.2

theorem collect_inside {t : PlacementTable} {place : Nat → Nat → Option Placement} {k : Nat}
    {objects : List (Object UInt32)}
    (h : ∀ x ∈ objects.zipIdx k, HomesEntered t (place x.2) x.2 x.1.symbols)
    (globals : NameMap UInt32) :
    Inside (fun a a' => a' = a) (collect place k objects globals)
      (collectIndexed t k objects globals) := by
  induction objects generalizing k globals with
  | nil => exact .ok rfl
  | cons o rest ih =>
    rw [List.zipIdx_cons] at h
    obtain ⟨ho, hrest⟩ := List.forall_mem_cons.mp h
    refine (enterSymbols_inside ho globals .empty).bind_same fun out _ => ?_
    refine (ih hrest out.1).bind_same fun more _ => ?_
    exact .ok rfl

theorem planSections_inside {t : PlacementTable} {place : Nat → Option Placement} {k index : Nat}
    {ss : List (Section UInt32)}
    (h : ∀ x ∈ ss.zipIdx index, ∃ p, t.cell? k x.2 = some (some p) ∧ place x.2 = some p)
    (lookup : String → Option UInt32) :
    Inside (fun out out' => out' = out) (planSections place lookup index ss)
      (planSectionsIndexed t k lookup index ss) := by
  induction ss generalizing index with
  | nil => exact .ok rfl
  | cons s rest ih =>
    rw [List.zipIdx_cons] at h
    obtain ⟨⟨p, hcell, hplace⟩, hrest⟩ := List.forall_mem_cons.mp h
    rw [planSections, planSectionsIndexed, placementAt_of_cell? hcell, hplace]
    refine (inside_mapError (plan p lookup s.relocs)).bind_same fun patches _ => ?_
    refine (ih hrest).bind_same fun more _ => ?_
    exact .ok rfl

theorem planObjects_inside {t : PlacementTable} {place : Nat → Nat → Option Placement}
    {a : Addresses} {k : Nat} {objects : List (Object UInt32)}
    (h : ∀ x ∈ objects.zipIdx k, ∀ y ∈ x.1.sections.zipIdx,
      ∃ p, t.cell? x.2 y.2 = some (some p) ∧ place x.2 y.2 = some p)
    (hlength : a.locals.length = k + objects.length) :
    Inside (fun out out' => out' = out) (planObjects place a k (objects.zip (a.locals.drop k)))
      (planObjectsIndexed t a k objects) := by
  induction objects generalizing k with
  | nil => exact .ok rfl
  | cons o rest ih =>
    rw [List.zipIdx_cons] at h
    obtain ⟨ho, hrest⟩ := List.forall_mem_cons.mp h
    rw [List.length_cons] at hlength
    have hk : k < a.locals.length := by omega
    rw [List.drop_eq_getElem_cons hk, List.zip_cons_cons, planObjects, planObjectsIndexed,
      entryAt_of_getElem? (List.getElem?_eq_getElem hk)]
    refine (planSections_inside ho _).bind_same fun patches _ => ?_
    refine (ih hrest (by omega)).bind_same fun more _ => ?_
    exact .ok rfl

theorem link_inside {l : Linker} (hh : HomesExist l.objects) (options : LinkSettings) :
    Inside (fun image image' => image' = image) (l.link options) (l.linkIndexed options) := by
  obtain ⟨t, hfill, hcomplete⟩ := exists_table l.objects options.base
  unfold link linkIndexed
  dsimp only
  rw [hfill]
  have hhomes : ∀ x ∈ l.objects.zipIdx 0,
      HomesEntered t ((layout l.objects).placement? options.base x.2) x.2 x.1.symbols := by
    rintro ⟨o, k⟩ hx s hs i hi
    have ho : l.objects[k]? = some o := List.mem_zipIdx_iff_getElem?.mp hx
    have hlt := hh o (List.mem_of_getElem? ho) s hs i hi
    obtain ⟨p, hcell, hplace, -⟩ := hcomplete k o ho i _ (List.getElem?_eq_getElem hlt)
    exact ⟨p, hcell, hplace⟩
  have hsections : ∀ x ∈ l.objects.zipIdx 0, ∀ y ∈ x.1.sections.zipIdx,
      ∃ p, t.cell? x.2 y.2 = some (some p) ∧
        (layout l.objects).placement? options.base x.2 y.2 = some p := by
    rintro ⟨o, k⟩ hx ⟨s, i⟩ hy
    obtain ⟨p, hcell, hplace, -⟩ := hcomplete k o (List.mem_zipIdx_iff_getElem?.mp hx) i s
      (List.mem_zipIdx_iff_getElem?.mp hy)
    exact ⟨p, hcell, hplace⟩
  refine (collect_inside hhomes l.absolutes).bind_same fun a ha => ?_
  have hlength : a.locals.length = 0 + l.objects.length := by
    rw [Nat.zero_add]
    exact length_locals hh ha
  refine (planObjects_inside hsections hlength).bind_same fun patches _ => ?_
  refine (inside_mapError (applyPatches _ patches)).bind_same fun bytes _ => ?_
  refine (inside_mapError (entryAddress a.globals options)).bind_same fun entry _ => ?_
  exact .ok rfl

/-! ## Objects from files -/

theorem planReloc_ne_noSuchSection (p : Placement) (lookup : String → Option UInt32)
    (r : Reloc UInt32) (symbol : String) (index : Nat) :
    planReloc p lookup r ≠ .error (.noSuchSection symbol index) := by
  intro h
  unfold planReloc at h
  rcases Except.bind_eq_error_iff.mp h with h | ⟨ty, -, h⟩
  · unfold relocTypeAt at h
    split at h <;> cases h
  · dsimp only at h
    split at h
    · cases h
    split at h
    · cases h
    split at h
    · rcases Except.bind_eq_error_iff.mp h with h | ⟨_, -, h⟩
      · cases (RelocType.ensureFits_eq_error h).1
      · cases h
    · cases h

/-- A link of objects whose symbols are in their sections does not report one that is not. -/
theorem link_ne_noSuchSection {l : Linker} (hh : HomesExist l.objects) (options : LinkSettings)
    (symbol : String) (index : Nat) : l.link options ≠ .error (.noSuchSection symbol index) := by
  intro h
  rcases link_error_cases hh h with ⟨name, he, -⟩ | ⟨s, -, p, -, r, -, he⟩ | ⟨name, -, -, he⟩
  · cases he
  · exact planReloc_ne_noSuchSection p _ r symbol index he
  · cases he

theorem homesExist_addFiles {l l' : Linker} {files : List Bytes} (hl : HomesExist l.objects)
    (h : l.addFiles files = .ok l') : HomesExist l'.objects := by
  unfold addFiles at h
  induction files generalizing l with
  | nil =>
    cases h
    exact hl
  | cons bs rest ih =>
    rw [List.foldlM_cons] at h
    obtain ⟨l₁, hadd, h⟩ := Except.bind_eq_ok_iff.mp h
    refine ih ?_ h
    unfold addFile at hadd
    split at hadd
    · next o ho =>
      cases hadd
      exact List.forall_mem_append.mpr
        ⟨hl, List.forall_mem_singleton.mpr (Elf.homes_readObject ho)⟩
    · cases hadd

/-- No bytes make the reader or the linker use an index outside a table. Whatever a file holds, it
is read or refused, and a symbol that was read is in one of the sections that were. So a link of
files finds every section that it looks for, and each has been placed. -/
theorem files_never_index_outside :
    (∀ bs, Elf.readObjectIndexed bs = (Elf.readObject bs).mapError .failed ∧
      (∀ index length, Elf.readObjectIndexed bs ≠ .error (.outside index length)) ∧
      ∀ o, Elf.readObject bs = .ok o →
        ∀ s ∈ o.symbols, ∀ i, s.home = some i → i < o.sections.length) ∧
    ∀ absolutes files l, (Linker.mk [] absolutes).addFiles files = .ok l → ∀ options,
      l.linkIndexed options = (l.link options).mapError .failed ∧
      (∀ index length, l.linkIndexed options ≠ .error (.outside index length)) ∧
      (∀ symbol index, l.link options ≠ .error (.noSuchSection symbol index)) ∧
      ∃ t, fillTable options.base (layout l.objects).all (blankTable l.objects) = .ok t ∧
        Complete t l.objects options.base := by
  constructor
  · intro bs
    have hread := Elf.readObject_inside bs
    exact ⟨hread.eq, hread.ne_outside, fun o ho => Elf.homes_readObject ho⟩
  · intro absolutes files l hl options
    have hnone : HomesExist [] := List.forall_mem_nil _
    have hh : HomesExist l.objects := homesExist_addFiles hnone hl
    have hlink := link_inside hh options
    exact ⟨hlink.eq, hlink.ne_outside, link_ne_noSuchSection hh options,
      exists_table l.objects options.base⟩

/-- A file that has the symbol `f` in a section which it does not have. -/
def strayFile : Bytes :=
  (Elf.writeObject ⟨[⟨".text", .text, [0, 0, 0, 12], [⟨0, "f", .pc26, 0⟩]⟩],
    [⟨"f", some 0, 0, true⟩, ⟨"g", some 0, 4, true⟩]⟩).set 114 0x77

/-- What is read from it: the symbol is not defined. -/
def strayObject : Object UInt32 :=
  ⟨[⟨".text", .text, [0, 0, 0, 12], [⟨0, "f", 6, 0⟩]⟩],
    [⟨".text", some 0, 0, false⟩, ⟨"f", none, 0, true⟩, ⟨"g", some 0, 4, true⟩]⟩

theorem files_never_index_outside_strayFile :
    ∃ l : Linker, (Linker.mk [] (.ofList [("f", 16)])).addFiles [strayFile] = .ok l ∧
      l.objects = [strayObject] ∧
      (∀ index length, l.linkIndexed ⟨0, some "g"⟩ ≠ .error (.outside index length)) ∧
      ∃ t, fillTable 0 (layout l.objects).all (blankTable l.objects) = .ok t ∧
        Complete t l.objects 0 := by
  have hread := Except.eq_ok_of_toOption
    (show (Elf.readObject strayFile).toOption = some strayObject by decide +kernel)
  have hadd : (Linker.mk [] (.ofList [("f", 16)])).addFiles [strayFile] =
      .ok ⟨[strayObject], .ofList [("f", 16)]⟩ := by
    rw [addFiles, List.foldlM_cons, addFile, hread]
    rfl
  obtain ⟨-, hinside, -, htable⟩ := files_never_index_outside.2 _ _ _ hadd ⟨0, some "g"⟩
  exact ⟨_, hadd, rfl, hinside, htable⟩

end Dlx.Linker
