import Dlx.Proofs.Elf.Layout
import Dlx.Proofs.Patch

/-!
# Reading back an object file

The reader finds the sections, symbols and relocations of an object by walking over the section
headers three times. Each walk is followed here through the headers that the writer makes.

Results:
* `readSections_opened`: the sections are found, each under the index of its header.
* `symbolTable?_opened`: so are the symbols and their names.
* `readSymbolsFrom_symbolRecords`: reading the symbols gives one for each section and then the
  object's, and it names every entry of the table.
* `readRelocs_opened`: the relocations come back to their sections, with the names of their symbols.
* `readObject_writeObject`: an object that the format holds is read back from its file.
-/
namespace Dlx.Elf

/-! ## Numbered lists -/

section Numbered

variable {α : Type}

/-- The members of a list with their numbers, from `k` on. -/
def numbered (k : Nat) (l : List α) : List (Nat × α) := (l.zipIdx k).map Prod.swap

theorem numbered_cons (k : Nat) (a : α) (l : List α) :
    numbered k (a :: l) = (k, a) :: numbered (k + 1) l := by
  simp [numbered, List.zipIdx_cons]

theorem map_snd_numbered (k : Nat) (l : List α) : (numbered k l).map (·.2) = l := by
  induction l generalizing k with
  | nil => rfl
  | cons a l ih => rw [numbered_cons, List.map_cons, ih]

theorem getElem?_numbered (k : Nat) (l : List α) (i : Nat) :
    (numbered k l)[i]? = l[i]?.map (k + i, ·) := by
  simp [numbered, List.getElem?_zipIdx, Option.map_map, Function.comp_def]

theorem modify_numbered {k : Nat} {l : List α} {a b : α} {m : List α} {f : Nat × α → Nat × α}
    (hf : f (k + l.length, a) = (k + l.length, b)) :
    (numbered k (l ++ a :: m)).modify l.length f = numbered k (l ++ b :: m) := by
  induction l generalizing k with
  | nil =>
    rw [List.nil_append, List.nil_append, numbered_cons, numbered_cons, List.length_nil,
      List.modify_zero_cons]
    exact congrArg (· :: _) hf
  | cons c l ih =>
    rw [List.length_cons, ← Nat.add_assoc, Nat.add_right_comm] at hf
    rw [List.cons_append, List.cons_append, numbered_cons, numbered_cons, List.length_cons,
      List.modify_succ_cons, ih hf]

end Numbered

/-- A section that is found stands at the place of its number. -/
theorem homeOf_numbered {l : List (Section UInt32)} {i : Nat} (k : Nat) (hi : i < l.length) :
    homeOf (numbered k l) (k + i) = some i := by
  induction l generalizing k i with
  | nil => cases hi
  | cons s l ih =>
    rw [homeOf, numbered_cons, List.findIdx?_cons]
    cases i with
    | zero => simp
    | succ i =>
      have ih := ih (k + 1) (Nat.lt_of_succ_lt_succ hi)
      rw [Nat.add_right_comm, Nat.add_assoc] at ih
      rw [if_neg (by simp)]
      exact congrArg (Option.map (· + 1)) ih

theorem homeOf_numbered_zero (l : List (Section UInt32)) : homeOf (numbered 1 l) 0 = none := by
  rw [homeOf, List.findIdx?_eq_none_iff]
  intro x hx
  obtain ⟨i, hi⟩ := List.getElem?_of_mem hx
  rw [getElem?_numbered, Option.map_eq_some_iff] at hi
  obtain ⟨s, -, rfl⟩ := hi
  simp

/-! ## Sections -/

/-- A section as it is read first, without relocations. -/
def bare (s : Section RelocType) : Section UInt32 := ⟨untilNul s.name, s.kind, s.data, []⟩

section Sections

variable {f : File} {names : Bytes} {h : SectionHeader}

theorem sectionData_describes {p : Part} (d : Describes f.data names h p)
    (htype : p.type ≠ sectionNoBits) (hflags : hasFlag p.flags flagCompressed = false) :
    f.sectionData h = .ok (p.content, false) := by
  rw [← d.type_eq] at htype
  rw [← d.flags_eq] at hflags
  rw [File.sectionData, if_neg htype, d.contents]
  simp only [bind, Except.bind, hflags]
  rfl

theorem readSection?_sectionPart {s : Section RelocType}
    (d : Describes f.data names h (sectionPart s)) :
    readSection? f names h = .ok (some (bare s)) := by
  have hflags : h.flags = sectionFlags s.kind := d.flags_eq
  have htype : h.type = sectionProgram := d.type_eq
  have hname : nameAt names h.name = .ok (untilNul s.name) := d.name
  have hdata : f.sectionData h = .ok (s.data, false) :=
    sectionData_describes d (show sectionProgram ≠ sectionNoBits by decide)
      (show hasFlag (sectionFlags s.kind) flagCompressed = false by cases s.kind <;> decide)
  have halloc : hasFlag h.flags flagAlloc = true := by rw [hflags]; cases s.kind <;> decide
  have hkind : (if hasFlag h.flags flagExec then SectionKind.text else .data) = s.kind := by
    rw [hflags]
    cases s.kind <;> decide
  rw [readSection?, halloc, hname, hdata]
  simp only [Except.mapError_ok, bind, Except.bind, htype, hkind]
  rfl

theorem readSection?_unallocated (hflags : hasFlag h.flags flagAlloc = false) :
    readSection? f names h = .ok none := by
  rw [readSection?, hflags]
  rfl

theorem readSections_unallocated (k : Nat) (hs : List SectionHeader)
    (hflags : ∀ h ∈ hs, hasFlag h.flags flagAlloc = false) :
    readSections f names k hs = .ok [] := by
  induction hs generalizing k with
  | nil => rfl
  | cons h hs ih =>
    rw [readSections, readSection?_unallocated (hflags h List.mem_cons_self),
      ih (k + 1) fun g hg => hflags g (List.mem_cons_of_mem _ hg)]
    rfl

/-- The headers of sections give the sections, and the headers behind them nothing. -/
theorem readSections_describes {k : Nat} {hs : List SectionHeader}
    {sections : List (Section RelocType)} {others : List Part}
    (d : List.Forall₂ (Describes f.data names) hs (sections.map sectionPart ++ others))
    (hothers : ∀ p ∈ others, hasFlag p.flags flagAlloc = false) :
    readSections f names k hs = .ok (numbered k (sections.map bare)) := by
  induction sections generalizing k hs with
  | nil =>
    refine readSections_unallocated k hs (forall_of_forall₂ d ?_)
    intro p hp h hd
    rw [hd.flags_eq]
    exact hothers p hp
  | cons s rest ih =>
    obtain ⟨h, hs, hd, hrest, rfl⟩ := List.forall₂_cons_right_iff.mp d
    rw [readSections, readSection?_sectionPart hd, ih hrest, List.map_cons, numbered_cons]
    rfl

end Sections

section Opened

variable {o : Object RelocType}

theorem readSections_opened (h : Sized o) :
    readSections (opened o) (namesTable o) 0 (headers o) =
      .ok (numbered 1 (o.sections.map bare)) := by
  have hdescribes := h.describes
  have hparts : allParts o = o.sections.map sectionPart ++
      (relaParts o (symbolsIndex o) 0 o.sections ++
        [symbolsPart o, stringsPart o, namesPart (objectParts o)]) := by
    rw [allParts, leadingParts, List.append_assoc]
  rw [headers, readSections, readSection?_unallocated (by decide)]
  rw [hparts] at hdescribes ⊢
  rw [readSections_describes hdescribes]
  · rfl
  · intro p hp
    simp only [List.mem_append, List.mem_cons, List.not_mem_nil, or_false] at hp
    rcases hp with hp | rfl | rfl | rfl
    · obtain ⟨s, _, i, _, rfl⟩ := mem_relaParts hp
      exact (by decide : hasFlag flagInfoLink flagAlloc = false)
    all_goals exact (by decide : hasFlag 0 flagAlloc = false)

/-! ## The symbol table -/

/-- An entry of the symbol table that a symbol was written to. -/
structure Enters (strings : Bytes) (r : SymbolRecord) (s : Symbol) : Prop where
  record : ∃ offset, r = symbolRecord s offset
  name : nameAt strings r.name = .ok (untilNul s.name)

theorem enters_zipWith (symbols : List Symbol) :
    List.Forall₂ (Enters (stringTable (symbols.map (·.name))))
      (symbols.zipWith symbolRecord (nameOffsets 1 (symbols.map (·.name)))) symbols := by
  have hoffsets := nameAt_nameOffsets (symbols.map (·.name))
  rw [List.forall₂_map_right_iff] at hoffsets
  generalize stringTable (symbols.map (·.name)) = table at hoffsets ⊢
  generalize nameOffsets 1 (symbols.map (·.name)) = offsets at hoffsets ⊢
  induction hoffsets with
  | nil => exact .nil
  | cons hname _ ih => exact .cons ⟨⟨_, rfl⟩, hname⟩ ih

theorem mem_orderedSymbols {s : Symbol} : s ∈ orderedSymbols o ↔ s ∈ o.symbols := by
  rw [orderedSymbols, List.mem_append, List.mem_filter, List.mem_filter, ← and_or_left]
  cases s.isGlobal <;> simp

theorem length_orderedSymbols (o : Object RelocType) :
    (orderedSymbols o).length = o.symbols.length := by
  have h := @List.length_eq_length_filter_add _ o.symbols (·.isGlobal)
  rw [orderedSymbols, List.length_append, h, Nat.add_comm]

theorem enters_orderedSymbols (o : Object RelocType) :
    List.Forall₂ (Enters (stringsPart o).content)
      ((orderedSymbols o).zipWith symbolRecord
        (nameOffsets 1 ((orderedSymbols o).map (·.name)))) (orderedSymbols o) :=
  enters_zipWith _

theorem Sized.fits_symbolRecords (h : Sized o) : ∀ r ∈ symbolRecords o, r.Fits := by
  obtain ⟨_, _, strings, _, _, _, _, hstrings, _⟩ := h.headers_eq
  have hlen := hstrings.length_content_le
  have hsize := h.fileSize
  have hcount := h.headerCount
  intro r hr
  simp only [symbolRecords, List.mem_append, List.mem_cons, List.mem_map, List.mem_range] at hr
  rcases hr with (rfl | ⟨i, hi, rfl⟩) | hr
  · constructor <;> decide
  · constructor <;> simp only [sectionSymbol] <;> omega
  · refine forall_of_forall₂ (enters_orderedSymbols o) ?_ r hr
    intro s hs r henters
    obtain ⟨⟨offset, rfl⟩, hname⟩ := henters
    have hoffset := le_length_of_nameAt hname
    refine ⟨by omega, s.value.toNat_lt, ?_, ?_⟩
    · simp only [symbolRecord]
      split <;> decide
    · simp only [symbolRecord]
      cases hhome : s.home with
      | none => decide
      | some i =>
        have hi := h.homes s (mem_orderedSymbols.mp hs) i hhome
        simp only [Option.map_some, Option.getD_some]
        omega

theorem symbolTable?_opened (h : Sized o) :
    (opened o).symbolTable? (headerTable o) =
      .ok (some (symbolRecords o, (stringsPart o).content)) := by
  obtain ⟨leading, symbols, strings, names, heq, hleading, hsymbols, hstrings, -⟩ := h.headers_eq
  -- The table is the first of its type, and its link is the index of the strings behind it.
  have hnone : ∀ hd ∈ leading, ¬ hd.type = sectionSymbols := by
    refine forall_of_forall₂ hleading ?_
    intro p hp hd hdescribes
    rw [hdescribes.type_eq]
    rcases List.mem_append.mp hp with hp | hp
    · obtain ⟨s, _, rfl⟩ := List.mem_map.mp hp
      exact (by decide : ¬ sectionProgram = sectionSymbols)
    · obtain ⟨s, _, i, _, rfl⟩ := mem_relaParts hp
      exact (by decide : ¬ sectionRela = sectionSymbols)
  have hfind : (headers o).find? (·.type = sectionSymbols) = some symbols := by
    have hnull : ¬ nullHeader.type = sectionSymbols := by decide
    have hfront : leading.find? (·.type = sectionSymbols) = none := by simpa using hnone
    have hfound : symbols.type = sectionSymbols := hsymbols.type_eq
    simp [heq, hnull, hfront, hfound]
  have hlink : (headers o)[symbols.link]? = some strings := by
    have hlen := hleading.length_eq
    have hindex := length_leadingParts o
    have hsymbolsLink : symbols.link = leading.length + 2 := by
      rw [hsymbols.link_eq, hlen]
      exact congrArg (· + 1) hindex.symm
    simp [heq, hsymbolsLink]
  have hentry : symbols.entrySize = recordSize (SymbolRecord.widths .elf32) := hsymbols.entrySize_eq
  have hdata : symbols.contents (opened o).data = .ok (symbolsPart o).content := hsymbols.contents
  have htext : strings.contents (opened o).data = .ok (stringsPart o).content := hstrings.contents
  have hread := ofFields_symbols (symbolRecords o) h.fits_symbolRecords
  rw [File.symbolTable?, sections_opened h, hfind]
  simp only [sectionAt_opened h hlink, bind, Except.bind, hdata, htext]
  rw [if_neg (fun hne => hne hentry)]
  exact congrArg (fun l => Except.ok (some (l, (stringsPart o).content))) hread

end Opened

/-! ## Symbols -/

/-- The symbols that stand for the sections: local, at the start of the section of their name. -/
def standIns {κ : Type} (sections : List (Section κ)) : List Symbol :=
  sections.zipIdx.map fun (s, i) => ⟨s.name, some i, 0, false⟩

theorem names_standIns {κ : Type} (sections : List (Section κ)) :
    (standIns sections).map (·.name) = sections.map (·.name) := by
  have h := congrArg (List.map (·.name)) (List.zipIdx_map_fst 0 sections)
  rw [List.map_map] at h
  rw [standIns, List.map_map]
  exact h

theorem standIns_map {κ κ' : Type} {f : Section κ → Section κ'} {sections : List (Section κ)}
    (h : ∀ s ∈ sections, (f s).name = s.name) : standIns (sections.map f) = standIns sections := by
  rw [standIns, List.zipIdx_map, List.map_map, standIns]
  refine List.map_congr_left fun x hx => ?_
  exact congrArg (Symbol.mk · (some x.2) 0 false) (h x.1 (List.fst_mem_of_mem_zipIdx hx))

section Symbols

variable {sections : List (Section UInt32)} {strings : Bytes} {so : SymbolsRead}

theorem readSymbolsFrom_append (placed : List (Nat × Section UInt32)) (l m : List SymbolRecord) :
    readSymbolsFrom placed strings (l ++ m) so =
      (readSymbolsFrom placed strings l so).bind (readSymbolsFrom placed strings m) := by
  induction l generalizing so with
  | nil => rfl
  | cons r l ih =>
    rw [List.cons_append, readSymbolsFrom, readSymbolsFrom]
    cases readSymbol placed strings so r with
    | error e => rfl
    | ok next => exact ih

theorem readSymbol_null (placed : List (Nat × Section UInt32))
    (hname : nameAt strings 0 = .ok "") :
    readSymbol placed strings so ⟨0, 0, 0, 0⟩ = .ok ⟨so.names ++ [""], so.symbols⟩ := by
  rw [readSymbol, hname]
  rfl

/-- The symbol of a section is left out if its name is taken. -/
theorem readSymbol_sectionSymbol {i : Nat} {s : Section UInt32} (hi : sections[i]? = some s) :
    readSymbol (numbered 1 sections) strings so (sectionSymbol i) =
      .ok ⟨so.names ++ [s.name], if so.symbols.any (·.name = s.name) then so.symbols
        else so.symbols ++ [⟨s.name, some i, 0, false⟩]⟩ := by
  obtain ⟨hlt, -⟩ := List.getElem?_eq_some_iff.mp hi
  have hhome : homeOf (numbered 1 sections) (sectionSymbol i).sectionIndex = some i := by
    rw [sectionSymbol, Nat.add_comm]
    exact homeOf_numbered 1 hlt
  rw [readSymbol, hhome]
  simp only [sectionSymbol, Option.bind_some, getElem?_numbered, hi, Option.map_some]
  cases so.symbols.any (·.name = s.name) <;> rfl

/-- A symbol's entry is read as the symbol. -/
theorem readSymbol_symbolRecord {s : Symbol} {offset : Nat}
    (hname : nameAt strings offset = .ok s.name) (hne : s.name ≠ "")
    (hhome : ∀ i, s.home = some i → i < sections.length) :
    readSymbol (numbered 1 sections) strings so (symbolRecord s offset) =
      .ok ⟨so.names ++ [s.name], so.symbols ++ [s]⟩ := by
  have hplace : homeOf (numbered 1 sections) ((s.home.map (· + 1)).getD 0) = s.home := by
    cases h : s.home with
    | none => exact homeOf_numbered_zero sections
    | some i =>
      rw [Option.map_some, Option.getD_some, Nat.add_comm]
      exact homeOf_numbered 1 (hhome i h)
  have hempty : ¬ s.name.isEmpty = true := by
    rw [String.isEmpty_iff]
    exact hne
  have hkind : ¬ (if s.isGlobal then 16 else 0) % 16 = 3 := by
    cases s.isGlobal <;> decide
  simp only [readSymbol, symbolRecord, if_neg hkind, hname, hplace, UInt32.ofNat_toNat]
  simp only [Except.mapError_ok, bind, Except.bind, if_neg hempty]
  obtain ⟨name, home, value, isGlobal⟩ := s
  cases isGlobal <;> simp [pure, Except.pure]

theorem readSymbolsFrom_symbolRecord {l : List SymbolRecord} {symbols : List Symbol}
    (hl : List.Forall₂ (Enters strings) l symbols)
    (hnames : ∀ s ∈ symbols, Storable s.name ∧ s.name ≠ "")
    (hhome : ∀ s ∈ symbols, ∀ i, s.home = some i → i < sections.length) :
    readSymbolsFrom (numbered 1 sections) strings l so =
      .ok ⟨so.names ++ symbols.map (·.name), so.symbols ++ symbols⟩ := by
  induction hl generalizing so with
  | nil => simp [readSymbolsFrom]
  | @cons r s l symbols hr _ ih =>
    obtain ⟨⟨offset, rfl⟩, hname⟩ := hr
    obtain ⟨hstorable, hne⟩ := hnames s List.mem_cons_self
    rw [untilNul_eq_self hstorable] at hname
    have hread : readSymbol (numbered 1 sections) strings so (symbolRecord s offset) =
        .ok ⟨so.names ++ [s.name], so.symbols ++ [s]⟩ :=
      readSymbol_symbolRecord hname hne (hhome s List.mem_cons_self)
    rw [readSymbolsFrom, hread]
    refine (ih (fun t ht => hnames t (List.mem_cons_of_mem _ ht))
      (fun t ht => hhome t (List.mem_cons_of_mem _ ht))).trans ?_
    simp

/-- The symbols of the sections are added one by one: no two sections share a name, so none is taken
for one that is there already. -/
theorem readSymbolsFrom_sectionSymbol (done rest : List (Section UInt32))
    (hnodup : ((done ++ rest).map (·.name)).Nodup) (names : List String) :
    readSymbolsFrom (numbered 1 (done ++ rest)) strings
      ((List.range' done.length rest.length).map sectionSymbol) ⟨names, standIns done⟩ =
      .ok ⟨names ++ rest.map (·.name), standIns (done ++ rest)⟩ := by
  induction rest generalizing done names with
  | nil => simp [readSymbolsFrom]
  | cons s rest ih =>
    have hget : (done ++ s :: rest)[done.length]? = some s := by simp
    have hfresh : (standIns done).any (·.name = s.name) = false := by
      rw [List.map_append, List.map_cons, List.nodup_append] at hnodup
      rw [List.any_eq_false]
      intro t ht heq
      have hmem := List.mem_map_of_mem (f := (·.name)) ht
      rw [names_standIns, of_decide_eq_true heq] at hmem
      exact hnodup.2.2 _ hmem _ List.mem_cons_self rfl
    have hsnoc : standIns done ++ [⟨s.name, some done.length, 0, false⟩] =
        standIns (done ++ [s]) := by
      simp [standIns, List.zipIdx_append]
    rw [List.length_cons, List.range'_succ, List.map_cons, readSymbolsFrom,
      readSymbol_sectionSymbol hget, hfresh, if_neg Bool.false_ne_true, hsnoc]
    have ih := ih (done ++ [s]) (by simpa using hnodup) (names ++ [s.name])
    simp only [List.append_assoc, List.singleton_append, List.length_append,
      List.length_singleton] at ih
    rw [List.map_cons]
    exact ih

/-- The names of the entries of the symbol table. -/
def entryNames (o : Object RelocType) : List String :=
  "" :: o.sections.map (untilNul ·.name) ++ (orderedSymbols o).map (untilNul ·.name)

theorem Writable.entryNames_eq {o : Object RelocType} (h : Writable o) :
    entryNames o = "" :: o.sections.map (·.name) ++ (orderedSymbols o).map (·.name) := by
  have hsections : o.sections.map (untilNul ·.name) = o.sections.map (·.name) :=
    List.map_congr_left fun s hs => untilNul_eq_self (h.sectionNames s hs)
  have hsymbols : (orderedSymbols o).map (untilNul ·.name) = (orderedSymbols o).map (·.name) :=
    List.map_congr_left fun s hs =>
      untilNul_eq_self (h.symbolNames s (mem_orderedSymbols.mp hs)).1
  rw [entryNames, hsections, hsymbols]

theorem readSymbolsFrom_symbolRecords {o : Object RelocType} (h : Writable o) :
    readSymbolsFrom (numbered 1 (o.sections.map bare)) (stringsPart o).content (symbolRecords o)
      ⟨[], []⟩ = .ok ⟨entryNames o, standIns o.sections ++ orderedSymbols o⟩ := by
  have hnames : (o.sections.map bare).map (·.name) = o.sections.map (·.name) := by
    rw [List.map_map]
    exact List.map_congr_left fun s hs => untilNul_eq_self (h.sectionNames s hs)
  have hstand : standIns (o.sections.map bare) = standIns o.sections :=
    standIns_map fun s hs => untilNul_eq_self (h.sectionNames s hs)
  have hnull : readSymbol (numbered 1 (o.sections.map bare)) (stringsPart o).content ⟨[], []⟩
      ⟨0, 0, 0, 0⟩ = .ok ⟨[""], standIns ([] : List (Section UInt32))⟩ :=
    readSymbol_null _ (nameAt_stringTable_zero _)
  have hsections : readSymbolsFrom (numbered 1 (o.sections.map bare)) (stringsPart o).content
      ((List.range o.sections.length).map sectionSymbol)
      ⟨[""], standIns ([] : List (Section UInt32))⟩ =
      .ok ⟨[""] ++ o.sections.map (·.name), standIns o.sections⟩ := by
    have hrun := @readSymbolsFrom_sectionSymbol (stringsPart o).content [] (o.sections.map bare)
      (by rw [List.nil_append, hnames]; exact h.distinctSections) [""]
    rwa [List.nil_append, hnames, hstand, List.length_nil, List.length_map,
      ← List.range_eq_range'] at hrun
  have hsymbols : readSymbolsFrom (numbered 1 (o.sections.map bare)) (stringsPart o).content
      ((orderedSymbols o).zipWith symbolRecord (nameOffsets 1 ((orderedSymbols o).map (·.name))))
      ⟨[""] ++ o.sections.map (·.name), standIns o.sections⟩ =
      .ok ⟨entryNames o, standIns o.sections ++ orderedSymbols o⟩ := by
    rw [h.entryNames_eq]
    refine readSymbolsFrom_symbolRecord (enters_orderedSymbols o) ?_ ?_
    · intro s hs
      exact h.symbolNames s (mem_orderedSymbols.mp hs)
    · intro s hs
      rw [List.length_map]
      exact h.homes s (mem_orderedSymbols.mp hs)
  rw [symbolRecords, readSymbolsFrom_append, readSymbolsFrom, hnull]
  exact (congrArg (Except.bind · _) hsections).trans hsymbols

end Symbols

/-! ## Relocations -/

section Relocations

variable {o : Object RelocType}

theorem symbolIndex_eq_zero {name : String} {l : List Symbol} (k : Nat)
    (h : name ∉ l.map (·.name)) : symbolIndex name k l = 0 := by
  induction l generalizing k with
  | nil => rfl
  | cons s l ih =>
    rw [List.map_cons, List.mem_cons, not_or] at h
    rw [symbolIndex, ih (k + 1) h.2, if_neg (fun hs => h.1 hs.2.symm)]

/-- The index that is found is one of a symbol with the name. -/
theorem symbolIndex_spec {name : String} {l : List Symbol} {k : Nat} (hk : 0 < k)
    (h : name ∈ l.map (·.name)) :
    ∃ i, symbolIndex name k l = k + i ∧ (l.map (·.name))[i]? = some name := by
  induction l generalizing k with
  | nil => cases h
  | cons s l ih =>
    by_cases hrest : name ∈ l.map (·.name)
    · obtain ⟨i, hi, hget⟩ := ih (Nat.succ_pos k) hrest
      refine ⟨i + 1, ?_, hget⟩
      rw [symbolIndex, hi, if_neg (by omega)]
      omega
    · have hs : s.name = name := by
        rw [List.map_cons, List.mem_cons] at h
        exact (h.resolve_right hrest).symm
      refine ⟨0, ?_, by rw [List.map_cons, List.getElem?_cons_zero, hs]⟩
      rw [symbolIndex, symbolIndex_eq_zero (k + 1) hrest, if_pos ⟨rfl, hs⟩]
      rfl

theorem getElem?_entryNames {name : String} (h : name ∈ o.symbols.map (·.name)) :
    (entryNames o)[symbolIndex name (1 + o.sections.length) (orderedSymbols o)]? =
      some (untilNul name) := by
  have hmem : name ∈ (orderedSymbols o).map (·.name) := by
    obtain ⟨s, hs, rfl⟩ := List.mem_map.mp h
    exact List.mem_map.mpr ⟨s, mem_orderedSymbols.mpr hs, rfl⟩
  obtain ⟨i, hi, hget⟩ := symbolIndex_spec (Nat.lt_of_lt_of_le Nat.one_pos (Nat.le_add_right 1 _))
    hmem
  have hstored : ((orderedSymbols o).map (untilNul ·.name))[i]? = some (untilNul name) := by
    have hmap := congrArg (Option.map untilNul) hget
    rwa [← List.getElem?_map, List.map_map] at hmap
  rw [hi, entryNames, List.getElem?_append_right (by simp; omega)]
  simpa [Nat.add_comm] using hstored

theorem length_entryNames (o : Object RelocType) :
    (entryNames o).length = 1 + o.sections.length + o.symbols.length := by
  simp [entryNames, length_orderedSymbols]
  omega

/-- A relocation as it is read back. -/
def filedReloc (r : Reloc RelocType) : Reloc UInt32 :=
  { r.withCode with symbol := untilNul r.symbol }

/-- A section as it is read back. -/
def filed (s : Section RelocType) : Section UInt32 :=
  ⟨untilNul s.name, s.kind, s.data, s.relocs.map filedReloc⟩

theorem Sized.readReloc_relaRecord (h : Sized o) {s : Section RelocType}
    (hs : s ∈ o.sections) {r : Reloc RelocType} (hr : r ∈ s.relocs) :
    readReloc (entryNames o) (relaRecord o r) = .ok (filedReloc r) := by
  have hname : (entryNames o)[(relaRecord o r).symbol]? = some (untilNul r.symbol) :=
    getElem?_entryNames (h.listed s hs r hr)
  rw [readReloc, hname]
  simp only [relaRecord, UInt32.ofNat_toNat]
  rfl

theorem Sized.fits_relaRecord (h : Sized o) {s : Section RelocType}
    (hs : s ∈ o.sections) {r : Reloc RelocType} (hr : r ∈ s.relocs) : (relaRecord o r).Fits := by
  have hcount := h.symbolCount
  have hname := getElem?_entryNames (h.listed s hs r hr)
  obtain ⟨hlt, -⟩ := List.getElem?_eq_some_iff.mp hname
  rw [length_entryNames] at hlt
  have htype : r.type.code.toNat < 0x100 := by cases r.type <;> decide
  exact ⟨r.offset.toNat_lt, Nat.lt_trans hlt hcount, htype, h.addends s hs r hr⟩

theorem readRelocList_map {names : List String} {l : List (Reloc RelocType)}
    (h : ∀ r ∈ l, readReloc names (relaRecord o r) = .ok (filedReloc r)) :
    readRelocList names (l.map (relaRecord o)) = .ok (l.map filedReloc) := by
  induction l with
  | nil => rfl
  | cons r l ih =>
    rw [List.map_cons, readRelocList, h r List.mem_cons_self,
      ih fun q hq => h q (List.mem_cons_of_mem _ hq)]
    rfl

section Walk

variable {f : File} {table : Bytes} {names : List String} {sections : List (Nat × Section UInt32)}

/-- Headers that are not for relocations change nothing. -/
theorem readRelocs_skip {hs rest : List SectionHeader}
    (h : ∀ hd ∈ hs, hd.type ≠ sectionRel ∧ hd.type ≠ sectionRela) :
    readRelocs f table names (hs ++ rest) sections = readRelocs f table names rest sections := by
  induction hs with
  | nil => rfl
  | cons hd hs ih =>
    obtain ⟨hrel, hrela⟩ := h hd List.mem_cons_self
    rw [List.cons_append, readRelocs, if_neg hrel, if_pos hrela]
    exact ih fun g hg => h g (List.mem_cons_of_mem _ hg)

theorem readRelocs_skip_all {hs : List SectionHeader}
    (h : ∀ hd ∈ hs, hd.type ≠ sectionRel ∧ hd.type ≠ sectionRela) :
    readRelocs f table names hs sections = .ok sections := by
  have hskip := @readRelocs_skip f table names sections hs [] h
  rwa [List.append_nil] at hskip

end Walk

/-- The table of a section's relocations gives them back to the section. -/
theorem Sized.readRelocs_relaPart (h : Sized o) {done rest : List (Section RelocType)}
    {s : Section RelocType} (hsections : o.sections = done ++ s :: rest) {link : Nat}
    {hd : SectionHeader}
    (d : Describes (writeObject o) (namesTable o) hd (relaPart o link done.length s))
    (hs : List SectionHeader) :
    readRelocs (opened o) (namesTable o) (entryNames o) (hd :: hs)
        (numbered 1 (done.map filed ++ bare s :: rest.map bare)) =
      readRelocs (opened o) (namesTable o) (entryNames o) hs
        (numbered 1 (done.map filed ++ filed s :: rest.map bare)) := by
  have hmem : s ∈ o.sections := by simp [hsections]
  have htype : hd.type = sectionRela := d.type_eq
  have hinfo : hd.info = 1 + done.length := d.info_eq.trans (Nat.add_comm _ _)
  have hhome : homeOf (numbered 1 (done.map filed ++ bare s :: rest.map bare)) hd.info =
      some done.length := by
    rw [hinfo]
    exact homeOf_numbered 1 (by simp)
  have hdata : (opened o).sectionData hd =
      .ok ((s.relocs.map (relaRecord o)).flatMap RelaRecord.bytes, false) :=
    @sectionData_describes (opened o) _ _ (relaPart o link done.length s) d
      (show sectionRela ≠ sectionNoBits by decide)
      (show hasFlag flagInfoLink flagCompressed = false by decide)
  have hrecords := ofFields_relas (s.relocs.map (relaRecord o)) (by
    intro r hr
    obtain ⟨q, hq, rfl⟩ := List.mem_map.mp hr
    exact h.fits_relaRecord hmem hq)
  have hrelocs := readRelocList_map fun r hr => h.readReloc_relaRecord hmem hr
  rw [readRelocs, htype, if_neg (by decide), if_neg (by decide), hhome]
  simp only [hdata, Except.mapError_ok, bind, Except.bind, show (opened o).cls = .elf32 from rfl,
    hrecords, hrelocs]
  have hlen : (done.map filed).length = done.length := List.length_map _
  rw [← hlen, modify_numbered]
  rfl

/-- After the tables of some sections, these have their relocations and the others have none yet. -/
theorem Sized.readRelocs_relaParts (h : Sized o) {link : Nat}
    (done rest : List (Section RelocType)) (hsections : o.sections = done ++ rest)
    {hs last : List SectionHeader}
    (d : List.Forall₂ (Describes (writeObject o) (namesTable o)) hs
      (relaParts o link done.length rest)) :
    readRelocs (opened o) (namesTable o) (entryNames o) (hs ++ last)
        (numbered 1 (done.map filed ++ rest.map bare)) =
      readRelocs (opened o) (namesTable o) (entryNames o) last
        (numbered 1 (o.sections.map filed)) := by
  induction rest generalizing done hs with
  | nil =>
    obtain rfl := List.forall₂_nil_right_iff.mp d
    rw [hsections, List.append_nil]
    simp
  | cons s rest ih =>
    have hnext : o.sections = (done ++ [s]) ++ rest := by rw [hsections]; simp
    -- the section in front joins those that are done, with or without a table of its own
    have ih := @ih (done ++ [s]) hnext
    simp only [List.length_append, List.length_singleton, List.map_append, List.map_cons,
      List.map_nil, List.append_assoc, List.singleton_append] at ih
    rw [relaParts_cons] at d
    rw [List.map_cons]
    split at d
    · next hempty =>
      have hbare : bare s = filed s := by
        rw [bare, filed, List.isEmpty_iff.mp hempty]
        rfl
      rw [hbare, ih d]
    · obtain ⟨hd, hs, hhead, hrest, rfl⟩ := List.forall₂_cons_right_iff.mp d
      rw [List.cons_append, h.readRelocs_relaPart hsections hhead, ih hrest]

theorem readRelocs_opened (h : Sized o) :
    readRelocs (opened o) (namesTable o) (entryNames o) (headers o)
      (numbered 1 (o.sections.map bare)) = .ok (numbered 1 (o.sections.map filed)) := by
  obtain ⟨leading, symbols, strings, names, heq, hleading, hsymbols, hstrings, hnames⟩ :=
    h.headers_eq
  obtain ⟨first, relas, rfl, hfirst, hrelas⟩ := exists_of_forall₂_append hleading
  have hskip : ∀ hd ∈ nullHeader :: first, hd.type ≠ sectionRel ∧ hd.type ≠ sectionRela := by
    intro hd hmem
    cases hmem with
    | head => decide
    | tail _ hmem =>
      refine forall_of_forall₂ (P := fun hd => hd.type ≠ sectionRel ∧ hd.type ≠ sectionRela) hfirst
        ?_ hd hmem
      intro p hp hd hdescribes
      obtain ⟨s, _, rfl⟩ := List.mem_map.mp hp
      rw [hdescribes.type_eq]
      exact (by decide : sectionProgram ≠ sectionRel ∧ sectionProgram ≠ sectionRela)
  have hlast : ∀ hd ∈ [symbols, strings, names], hd.type ≠ sectionRel ∧ hd.type ≠ sectionRela := by
    simp only [List.mem_cons, List.not_mem_nil, or_false, forall_eq_or_imp, forall_eq,
      hsymbols.type_eq, hstrings.type_eq, hnames.type_eq]
    exact (by decide : (sectionSymbols ≠ sectionRel ∧ sectionSymbols ≠ sectionRela) ∧
      (sectionStrings ≠ sectionRel ∧ sectionStrings ≠ sectionRela) ∧
      (sectionStrings ≠ sectionRel ∧ sectionStrings ≠ sectionRela))
  have hwalk := @Sized.readRelocs_relaParts o h (symbolsIndex o) [] o.sections rfl relas
    [symbols, strings, names] hrelas
  rw [heq, List.append_assoc, ← List.cons_append, readRelocs_skip hskip]
  exact hwalk.trans (readRelocs_skip_all hlast)

end Relocations

/-! ## The whole object -/

/-- The sections are read back, whatever becomes of the symbols. -/
theorem Sized.readObject_eq_ok {o : Object RelocType} (h : Sized o) {symbols : List Symbol}
    (hsymbols : readSymbolsFrom (numbered 1 (o.sections.map bare)) (stringsPart o).content
      (symbolRecords o) ⟨[], []⟩ = .ok ⟨entryNames o, symbols⟩) :
    readObject (writeObject o) = .ok ⟨o.sections.map filed, symbols⟩ := by
  have htype : (opened o).header.type = typeRelocatable := rfl
  have hmachine : (opened o).header.machine = machine := rfl
  rw [readObject, openFile_writeObject h]
  simp only [Except.mapError_ok, bind, Except.bind, htype, hmachine, namedSections_opened h,
    sections_opened h, readSections_opened h, symbolTable?_opened h, hsymbols, readRelocs_opened h,
    map_snd_numbered]
  rfl

theorem Writable.map_filed {o : Object RelocType} (h : Writable o) :
    o.sections.map filed = o.withCodes.sections := by
  refine List.map_congr_left fun s hs => ?_
  have hrelocs : s.relocs.map filedReloc = s.relocs.map Reloc.withCode := by
    refine List.map_congr_left fun r hr => ?_
    obtain ⟨y, hy, hname⟩ := List.mem_map.mp (h.listed s hs r hr)
    have hstorable : Storable r.symbol := hname ▸ (h.symbolNames y hy).1
    rw [filedReloc, untilNul_eq_self hstorable]
    rfl
  rw [filed, untilNul_eq_self (h.sectionNames s hs), hrelocs]
  rfl

/-- An object that the format holds is read back from its file: the same sections with the same
relocations, a symbol for each section, and the object's symbols, local ones first. -/
theorem readObject_writeObject (o : Object RelocType) (h : Writable o) :
    readObject (writeObject o) =
      .ok ⟨o.withCodes.sections,
        standIns o.sections ++ o.symbols.filter (!·.isGlobal) ++
          o.symbols.filter (·.isGlobal)⟩ := by
  rw [h.toSized.readObject_eq_ok (readSymbolsFrom_symbolRecords h), h.map_filed,
    List.append_assoc]
  rfl

/-- Sections of odd length with relocations on both sides of an empty one, a name beyond ASCII, and
a symbol of each kind. -/
def oddObject : Object RelocType :=
  ⟨[⟨".text", .text, [1, 2, 3, 4, 5, 6, 7],
      [⟨0, "δ", .pc26, -4⟩, ⟨3, "x", .lo16, 8⟩]⟩,
    ⟨".bss", .data, [], []⟩,
    ⟨".data", .data, [9], [⟨0, "far", .abs32, -1⟩]⟩],
   [⟨"δ", some 0, 4, true⟩, ⟨"far", none, 0, true⟩, ⟨"x", some 2, 0, false⟩]⟩

theorem writable_oddObject : Writable oddObject where
  distinctSections := by decide
  sectionNames := by decide
  symbolNames := by decide
  homes := by decide
  listed := by decide
  addends := by decide
  fileSize := by decide +kernel
  headerCount := by decide
  symbolCount := by decide

theorem readObject_writeObject_oddObject :
    Writable oddObject ∧ readObject (writeObject oddObject) =
      .ok ⟨oddObject.withCodes.sections,
        [⟨".text", some 0, 0, false⟩, ⟨".bss", some 1, 0, false⟩, ⟨".data", some 2, 0, false⟩,
          ⟨"x", some 2, 0, false⟩, ⟨"δ", some 0, 4, true⟩, ⟨"far", none, 0, true⟩]⟩ :=
  ⟨writable_oddObject, readObject_writeObject oddObject writable_oddObject⟩

end Dlx.Elf
