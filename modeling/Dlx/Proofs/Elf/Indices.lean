import Dlx.Elf.Reader
import Dlx.Proofs.Patch

/-!
# Indices in object files

A file says by index which section a symbol is in and which section a table of relocations is for.
The indices count the headers of the file, and a map takes them to the sections of the object, which
are then indexed without a check. Here the reader is written down with that map and with tables in
which an index can be outside; that none ever is, whatever the bytes are, follows because it reads
the same as `readObject`, which has no such outcome.

Results:
* `readObject_inside`: no file makes the reader use an index outside a table.
* `homes_readObject`: a symbol of an object that was read is in one of its sections.
-/
namespace Dlx.Elf

/-! ## Reading with indices -/

/-- The sections of an object, and for the index of a header the one of its section. -/
structure SectionTable where
  sections : List (Section UInt32)
  indices : List (Nat × Nat)

def readSectionsIndexed (f : File) (names : Bytes) :
    Nat → List SectionHeader → SectionTable → Except (Stopped ReadError) SectionTable
  | _, [], t => .ok t
  | index, h :: rest, t => do
    match ← (readSection? f names h).mapError .failed with
    | none => readSectionsIndexed f names (index + 1) rest t
    | some s =>
      readSectionsIndexed f names (index + 1) rest
        ⟨t.sections ++ [s], t.indices ++ [(index, t.sections.length)]⟩

/-- Reads an entry of the symbol table. The name of a section's symbol is looked up in the table of
sections. -/
def readSymbolIndexed (t : SectionTable) (strings : Bytes) (so : SymbolsRead) (r : SymbolRecord) :
    Except (Stopped ReadError) SymbolsRead := do
  let home := t.indices.lookup r.sectionIndex
  if r.info % 16 = 3 then
    match home with
    | none => return ⟨so.names ++ [""], so.symbols⟩
    | some i =>
      let name := (← entryAt t.sections i).name
      if so.symbols.any (·.name = name) then return ⟨so.names ++ [name], so.symbols⟩
      else return ⟨so.names ++ [name], so.symbols ++ [⟨name, some i, 0, false⟩]⟩
  else
    let name ← ((nameAt strings r.name).mapError .malformed).mapError .failed
    if name.isEmpty then return ⟨so.names ++ [name], so.symbols⟩
    else
      let symbol := ⟨name, home, UInt32.ofNat r.value, r.info / 16 ≠ 0⟩
      return ⟨so.names ++ [name], so.symbols ++ [symbol]⟩

def readSymbolsIndexed (t : SectionTable) (strings : Bytes) :
    List SymbolRecord → SymbolsRead → Except (Stopped ReadError) SymbolsRead
  | [], so => .ok so
  | r :: rest, so => do readSymbolsIndexed t strings rest (← readSymbolIndexed t strings so r)

/-- Adds relocations one by one to the section with an index. -/
def pushRelocs (names : List String) (target : Nat) :
    List RelaRecord → List (Section UInt32) → Except (Stopped ReadError) (List (Section UInt32))
  | [], sections => .ok sections
  | r :: rest, sections => do
    let reloc ← (readReloc names r).mapError .failed
    let sections ← modifyAt sections target fun s => { s with relocs := s.relocs ++ [reloc] }
    pushRelocs names target rest sections

def readRelocsIndexed (f : File) (sectionNames : Bytes) (names : List String)
    (indices : List (Nat × Nat)) :
    List SectionHeader → List (Section UInt32) →
      Except (Stopped ReadError) (List (Section UInt32))
  | [], sections => .ok sections
  | h :: rest, sections => do
    if h.type = sectionRel then
      let name ← ((nameAt sectionNames h.name).mapError .malformed).mapError .failed
      throw (.failed (.unsupportedSection name .relWithoutAddends))
    else if h.type ≠ sectionRela then
      readRelocsIndexed f sectionNames names indices rest sections
    else
      match indices.lookup h.info with
      | none => readRelocsIndexed f sectionNames names indices rest sections
      | some target =>
        let (data, _) ← ((f.sectionData h).mapError .malformed).mapError .failed
        let relas := (records (RelaRecord.widths f.cls) data).map (.ofFields f.cls)
        let sections ← pushRelocs names target relas sections
        readRelocsIndexed f sectionNames names indices rest sections

/-- Reads an object for the linker, with every index into a table of its own. -/
def readObjectIndexed (bs : Bytes) : Except (Stopped ReadError) (Object UInt32) := do
  let f ← ((openFile bs).mapError .malformed).mapError .failed
  if f.header.type ≠ typeRelocatable then throw (.failed (.notRelocatable f.header.type))
  if f.header.machine ≠ machine then throw (.failed (.wrongMachine f.header.machine))
  let (table, names) ← (f.namedSections.mapError .malformed).mapError .failed
  let headers := f.sections table
  let t ← readSectionsIndexed f names 0 headers ⟨[], []⟩
  let so ← match ← ((f.symbolTable? table).mapError .malformed).mapError .failed with
    | none => pure ⟨[], []⟩
    | some (entries, strings) => readSymbolsIndexed t strings entries ⟨[], []⟩
  let sections ← readRelocsIndexed f names so.names t.indices headers t.sections
  return ⟨sections, so.symbols⟩

/-! ## The map of indices -/

/-- The table of sections that know the indices of their headers. -/
def SectionTable.of (sections : List (Nat × Section UInt32)) : SectionTable :=
  ⟨sections.map (·.2), sections.zipIdx.map fun x => (x.1.1, x.2)⟩

theorem lookup_zipIdx (sections : List (Nat × Section UInt32)) (k index : Nat) :
    ((sections.zipIdx k).map fun x => (x.1.1, x.2)).lookup index =
      (homeOf sections index).map (· + k) := by
  induction sections generalizing k with
  | nil => rfl
  | cons s rest ih =>
    rw [List.zipIdx_cons, List.map_cons, List.lookup_cons, homeOf, List.findIdx?_cons]
    by_cases hs : s.1 = index
    · simp [hs]
    · have hne : (index == s.1) = false := by simpa using Ne.symm hs
      rw [hne, ih, homeOf]
      cases rest.findIdx? (·.1 = index) with
      | none => simp [hs]
      | some i => simp [hs, Nat.add_assoc, Nat.add_comm 1 k]

theorem lookup_indices (sections : List (Nat × Section UInt32)) (index : Nat) :
    (SectionTable.of sections).indices.lookup index = homeOf sections index := by
  rw [SectionTable.of, lookup_zipIdx]
  cases homeOf sections index <;> rfl

theorem lt_of_homeOf {sections : List (Nat × Section UInt32)} {index i : Nat}
    (h : homeOf sections index = some i) : i < sections.length :=
  (List.findIdx?_eq_some_iff_getElem.mp h).1

/-- A change of a section leaves the map as it is. -/
theorem SectionTable.of_modify (sections : List (Nat × Section UInt32)) (i : Nat)
    (f : Section UInt32 → Section UInt32) :
    SectionTable.of (sections.modify i fun x => (x.1, f x.2)) =
      ⟨(SectionTable.of sections).sections.modify i f, (SectionTable.of sections).indices⟩ := by
  simp only [SectionTable.of, SectionTable.mk.injEq]
  constructor
  · apply List.ext_getElem?
    intro j
    simp only [List.getElem?_modify, List.getElem?_map]
    cases sections[j]? with
    | none => rfl
    | some x => by_cases hij : i = j <;> simp [hij]
  · apply List.ext_getElem?
    intro j
    simp only [List.getElem?_map, List.getElem?_zipIdx, List.getElem?_modify]
    cases sections[j]? with
    | none => rfl
    | some x => by_cases hij : i = j <;> simp [hij]

/-! ## The same reading -/

theorem inside_malformed {α : Type} (x : Except Fault α) :
    Inside (fun a b => b = a) (x.mapError ReadError.malformed)
      ((x.mapError ReadError.malformed).mapError .failed) :=
  inside_mapError _

theorem readSections_inside (f : File) (names : Bytes) (index : Nat) (hs : List SectionHeader)
    (before : List (Nat × Section UInt32)) :
    Inside (fun sections t => t = .of (before ++ sections)) (readSections f names index hs)
      (readSectionsIndexed f names index hs (.of before)) := by
  induction hs generalizing index before with
  | nil => exact .ok (by rw [List.append_nil])
  | cons h rest ih =>
    refine (inside_mapError (readSection? f names h)).bind_same fun found _ => ?_
    cases found with
    | none => exact (ih (index + 1) before).bind_pure fun _ _ ht => ht
    | some s =>
      have htable : SectionTable.of (before ++ [(index, s)]) =
          ⟨(SectionTable.of before).sections ++ [s], (SectionTable.of before).indices ++
            [(index, (SectionTable.of before).sections.length)]⟩ := by
        simp [SectionTable.of, List.zipIdx_append]
      have hrest := ih (index + 1) (before ++ [(index, s)])
      rw [htable] at hrest
      refine hrest.bind_pure fun more t ht => ?_
      rw [ht, List.append_assoc, List.singleton_append]

theorem readSymbol_inside (sections : List (Nat × Section UInt32)) (strings : Bytes)
    (so : SymbolsRead) (r : SymbolRecord) :
    Inside (fun out out' => out' = out) (readSymbol sections strings so r)
      (readSymbolIndexed (.of sections) strings so r) := by
  unfold readSymbolIndexed readSymbol
  rw [lookup_indices]
  by_cases hsection : r.info % 16 = 3
  · rw [if_pos hsection, if_pos hsection]
    cases hhome : homeOf sections r.sectionIndex with
    | none => exact .ok rfl
    | some i =>
      have hget := List.getElem?_eq_getElem (lt_of_homeOf hhome)
      have hentry := congrArg (Option.map (·.2)) hget
      rw [← List.getElem?_map] at hentry
      simp only [SectionTable.of, entryAt_of_getElem? hentry, Option.bind_some, hget,
        Option.map_some, bind, Except.bind]
      split
      · exact .ok rfl
      · exact .ok rfl
  · rw [if_neg hsection, if_neg hsection]
    refine (inside_malformed (nameAt strings r.name)).bind_same fun name _ => ?_
    split
    · exact .ok rfl
    · exact .ok rfl

theorem readSymbols_inside (sections : List (Nat × Section UInt32)) (strings : Bytes)
    (rs : List SymbolRecord) (so : SymbolsRead) :
    Inside (fun out out' => out' = out) (readSymbolsFrom sections strings rs so)
      (readSymbolsIndexed (.of sections) strings rs so) := by
  induction rs generalizing so with
  | nil => exact .ok rfl
  | cons r rest ih =>
    refine (readSymbol_inside sections strings so r).bind_same fun so _ => ?_
    exact ih so

/-- Relocations that are added one by one are there in order. -/
theorem pushRelocs_inside (names : List String) {target : Nat} (relas : List RelaRecord)
    {sections : List (Section UInt32)} (h : target < sections.length) :
    Inside (fun relocs out =>
        out = sections.modify target fun s => { s with relocs := s.relocs ++ relocs })
      (readRelocList names relas) (pushRelocs names target relas sections) := by
  induction relas generalizing sections with
  | nil =>
    refine .ok ?_
    have hnothing : (fun s : Section UInt32 => { s with relocs := s.relocs ++ [] }) = id := by
      funext s
      rw [List.append_nil, id]
    rw [hnothing, List.modify_id]
  | cons r rest ih =>
    refine (inside_mapError (readReloc names r)).bind_same fun reloc _ => ?_
    rw [modifyAt_of_lt h]
    refine (ih (by rwa [List.length_modify])).bind_pure fun more out hout => ?_
    rw [hout, List.modify_modify_eq]
    refine congrArg (sections.modify target ·) (funext fun s => ?_)
    simp only [Function.comp_apply, List.append_assoc, List.singleton_append]

theorem readRelocs_inside (f : File) (sectionNames : Bytes) (names : List String)
    (hs : List SectionHeader) (sections : List (Nat × Section UInt32)) :
    Inside (fun out out' => out' = out.map (·.2)) (readRelocs f sectionNames names hs sections)
      (readRelocsIndexed f sectionNames names (SectionTable.of sections).indices hs
        (SectionTable.of sections).sections) := by
  induction hs generalizing sections with
  | nil => exact .ok rfl
  | cons h rest ih =>
    unfold readRelocsIndexed readRelocs
    by_cases hrel : h.type = sectionRel
    · rw [if_pos hrel, if_pos hrel]
      refine (inside_malformed (nameAt sectionNames h.name)).bind_same fun name _ => ?_
      exact .error rfl
    · rw [if_neg hrel, if_neg hrel]
      by_cases hrela : h.type ≠ sectionRela
      · rw [if_pos hrela, if_pos hrela]
        exact ih sections
      · rw [if_neg hrela, if_neg hrela, lookup_indices]
        cases hhome : homeOf sections h.info with
        | none => exact ih sections
        | some target =>
          have hlt : target < (SectionTable.of sections).sections.length := by
            rw [SectionTable.of, List.length_map]
            exact lt_of_homeOf hhome
          refine (inside_malformed (f.sectionData h)).bind_same fun data _ => ?_
          refine (pushRelocs_inside names _ hlt).bind ?_
          rintro relocs _ - - rfl
          have hrest := ih (sections.modify target fun x =>
            (x.1, { x.2 with relocs := x.2.relocs ++ relocs }))
          rw [SectionTable.of_modify sections target fun s =>
            { s with relocs := s.relocs ++ relocs }] at hrest
          exact hrest

theorem readObject_inside (bs : Bytes) :
    Inside (fun o o' => o' = o) (readObject bs) (readObjectIndexed bs) := by
  unfold readObject readObjectIndexed
  refine (inside_malformed (openFile bs)).bind_same fun f _ => ?_
  dsimp only
  by_cases htype : f.header.type ≠ typeRelocatable
  · rw [if_pos htype, if_pos htype]
    exact .error rfl
  · rw [if_neg htype, if_neg htype]
    by_cases hmachine : f.header.machine ≠ machine
    · rw [if_pos hmachine, if_pos hmachine]
      exact .error rfl
    · rw [if_neg hmachine, if_neg hmachine]
      refine (inside_malformed f.namedSections).bind_same fun (table, names) _ => ?_
      refine (readSections_inside f names 0 (f.sections table) []).bind ?_
      rintro sections _ - - rfl
      refine (inside_malformed (f.symbolTable? table)).bind_same fun symbols? _ => ?_
      have hrelocs : ∀ so : SymbolsRead,
          Inside (fun o o' => o' = o)
            (readRelocs f names so.names (f.sections table) sections >>= fun sections =>
              pure (Object.mk (sections.map (·.2)) so.symbols))
            (readRelocsIndexed f names so.names (SectionTable.of sections).indices
              (f.sections table) (SectionTable.of sections).sections >>= fun sections =>
                pure (Object.mk sections so.symbols)) := by
        intro so
        refine (readRelocs_inside f names so.names (f.sections table) sections).bind ?_
        rintro sections _ - - rfl
        exact .ok rfl
      cases symbols? with
      | none => exact hrelocs ⟨[], []⟩
      | some entries =>
        refine (readSymbols_inside sections entries.2 entries.1 ⟨[], []⟩).bind_same fun so _ => ?_
        exact hrelocs so

/-! ## Homes -/

/-- An entry of the symbol table gives at most one symbol, in the section of its header. -/
theorem readSymbol_cases {sections : List (Nat × Section UInt32)} {strings : Bytes}
    {so so' : SymbolsRead} {r : SymbolRecord} (h : readSymbol sections strings so r = .ok so') :
    so'.symbols = so.symbols ∨
      ∃ s : Symbol, s.home = homeOf sections r.sectionIndex ∧ so'.symbols = so.symbols ++ [s] := by
  unfold readSymbol at h
  dsimp only at h
  split at h
  · split at h
    · cases h
      exact .inl rfl
    · next i name hfound =>
      obtain ⟨j, hhome, hname⟩ := Option.bind_eq_some_iff.mp hfound
      obtain ⟨s, -, hs⟩ := Option.map_eq_some_iff.mp hname
      cases hs
      split at h
      · cases h
        exact .inl rfl
      · cases h
        exact .inr ⟨_, hhome.symm, rfl⟩
  · obtain ⟨name, -, h⟩ := Except.bind_eq_ok_iff.mp h
    split at h
    · cases h
      exact .inl rfl
    · cases h
      exact .inr ⟨_, rfl, rfl⟩

theorem homes_readSymbolsFrom {sections : List (Nat × Section UInt32)} {strings : Bytes}
    {rs : List SymbolRecord} {so so' : SymbolsRead}
    (h : readSymbolsFrom sections strings rs so = .ok so')
    (hso : ∀ s ∈ so.symbols, ∀ i, s.home = some i → i < sections.length) :
    ∀ s ∈ so'.symbols, ∀ i, s.home = some i → i < sections.length := by
  induction rs generalizing so with
  | nil =>
    cases h
    exact hso
  | cons r rest ih =>
    obtain ⟨next, hnext, h⟩ := Except.bind_eq_ok_iff.mp h
    refine ih h ?_
    rcases readSymbol_cases hnext with hsame | ⟨s, hhome, hadded⟩
    · rw [hsame]
      exact hso
    · rw [hadded]
      refine List.forall_mem_append.mpr ⟨hso, List.forall_mem_singleton.mpr fun i hi => ?_⟩
      exact lt_of_homeOf (hhome.symm.trans hi)

theorem length_readRelocs {f : File} {sectionNames : Bytes} {names : List String}
    {hs : List SectionHeader} {sections out : List (Nat × Section UInt32)}
    (h : readRelocs f sectionNames names hs sections = .ok out) : out.length = sections.length := by
  induction hs generalizing sections with
  | nil =>
    cases h
    rfl
  | cons hd rest ih =>
    unfold readRelocs at h
    split at h
    · obtain ⟨name, -, h⟩ := Except.bind_eq_ok_iff.mp h
      cases h
    · split at h
      · exact ih h
      · split at h
        · exact ih h
        · obtain ⟨data, -, h⟩ := Except.bind_eq_ok_iff.mp h
          obtain ⟨relocs, -, h⟩ := Except.bind_eq_ok_iff.mp h
          rw [ih h, List.length_modify]

/-- A symbol that is in a section is in one that was read. -/
theorem homes_readObject {bs : Bytes} {o : Object UInt32} (h : readObject bs = .ok o) :
    ∀ s ∈ o.symbols, ∀ i, s.home = some i → i < o.sections.length := by
  unfold readObject at h
  obtain ⟨f, -, h⟩ := Except.bind_eq_ok_iff.mp h
  dsimp only at h
  split at h
  · cases h
  split at h
  · cases h
  obtain ⟨⟨table, names⟩, -, h⟩ := Except.bind_eq_ok_iff.mp h
  obtain ⟨sections, -, h⟩ := Except.bind_eq_ok_iff.mp h
  obtain ⟨symbols?, -, h⟩ := Except.bind_eq_ok_iff.mp h
  have hrelocs : ∀ so : SymbolsRead,
      (∀ s ∈ so.symbols, ∀ i, s.home = some i → i < sections.length) →
      (readRelocs f names so.names (f.sections table) sections >>= fun sections =>
        pure (Object.mk (sections.map (·.2)) so.symbols)) = .ok o →
      ∀ s ∈ o.symbols, ∀ i, s.home = some i → i < o.sections.length := by
    intro so hso h
    obtain ⟨out, hout, h⟩ := Except.bind_eq_ok_iff.mp h
    cases h
    rw [List.length_map, length_readRelocs hout]
    exact hso
  cases symbols? with
  | none => exact hrelocs ⟨[], []⟩ (List.forall_mem_nil _) h
  | some entries =>
    obtain ⟨so, hso, h⟩ := Except.bind_eq_ok_iff.mp h
    exact hrelocs so (homes_readSymbolsFrom hso (List.forall_mem_nil _)) h

end Dlx.Elf
