import Dlx.Proofs.Elf.Names
import Dlx.Proofs.Elf.Opening
import Dlx.Elf.Writer

/-!
# The layout of an object file

The writer lays out the parts of a file one after the other and computes, along the way, the offsets
that the section headers hold. A header describes a part when the offsets in it lead to the part's
name, as far as it can be read, and to its content.

Results:
* `describes_partHeaders`: every header that is written describes its part.
* `openFile_writeObject`: the file of an object is opened, with the header and the section headers
  that were written.
* `namedSections_opened`: its section names are found.
-/
namespace Dlx.Elf

/-! ## Headers and parts -/

/-- A header that leads to a part: the offsets in it are those of the part's name and content, and
all else is as the part says. -/
structure Describes (file names : Bytes) (h : SectionHeader) (p : Part) : Prop where
  type_eq : h.type = p.type
  flags_eq : h.flags = p.flags
  address_eq : h.address = 0
  link_eq : h.link = p.link
  info_eq : h.info = p.info
  align_eq : h.align = p.align
  entrySize_eq : h.entrySize = p.entrySize
  contents : h.contents file = .ok p.content
  name : nameAt names h.name = .ok (untilNul p.name)

namespace Describes

variable {file names : Bytes} {h : SectionHeader} {p : Part}

theorem of_header {nameOffset position : Nat} (e : h = p.header nameOffset position)
    (hcontents : h.contents file = .ok p.content)
    (hname : nameAt names h.name = .ok (untilNul p.name)) :
    Describes file names h p := by
  subst e
  exact ⟨rfl, rfl, rfl, rfl, rfl, rfl, rfl, hcontents, hname⟩

theorem end_le (d : Describes file names h p) : h.offset + h.size ≤ file.length :=
  (range_eq_ok_iff.mp d.contents).2.1

theorem length_content_le (d : Describes file names h p) : p.content.length ≤ file.length := by
  obtain ⟨-, hend, hcut⟩ := range_eq_ok_iff.mp d.contents
  rw [← hcut, List.length_take, List.length_drop]
  omega

end Describes

/-- The numbers of a part that its header takes over are words. -/
structure Part.Fits (p : Part) : Prop where
  type : p.type < 0x100000000
  flags : p.flags < 0x100000000
  link : p.link < 0x100000000
  info : p.info < 0x100000000
  align : p.align < 0x100000000
  entrySize : p.entrySize < 0x100000000

/-- In a small file, the offsets of a header that describes a part are words as well. -/
theorem Describes.fits {file names : Bytes} {h : SectionHeader} {p : Part}
    (d : Describes file names h p) (hp : p.Fits) (hfile : file.length < 0x100000000)
    (hnames : names.length < 0x100000000) : h.Fits := by
  have hend := d.end_le
  have hname := le_length_of_nameAt d.name
  refine ⟨by omega, ?_, ?_, ?_, by omega, by omega, ?_, ?_, ?_, ?_⟩
  · rw [d.type_eq]
    exact hp.type
  · rw [d.flags_eq]
    exact hp.flags
  · rw [d.address_eq]
    decide
  · rw [d.link_eq]
    exact hp.link
  · rw [d.info_eq]
    exact hp.info
  · rw [d.align_eq]
    exact hp.align
  · rw [d.entrySize_eq]
    exact hp.entrySize

theorem map_name_partHeaders (position nameOffset : Nat) (parts : List Part) :
    (partHeaders position nameOffset parts).map (·.name) =
      nameOffsets nameOffset (parts.map (·.name)) := by
  induction parts generalizing position nameOffset with
  | nil => rfl
  | cons p rest ih => simp only [partHeaders, List.map_cons, nameOffsets, ih, Part.header]

theorem length_partHeaders (position nameOffset : Nat) (parts : List Part) :
    (partHeaders position nameOffset parts).length = parts.length := by
  induction parts generalizing position nameOffset with
  | nil => rfl
  | cons p rest ih => simp only [partHeaders, List.length_cons, ih]

theorem contents_partHeaders {file : Bytes} (hlen : file.length < capacity 64)
    (parts : List Part) (before after : Bytes) (position nameOffset : Nat)
    (hbefore : before.length = fileHeaderSize + position)
    (hfile : file = before ++ partBytes position parts ++ after) :
    List.Forall₂
      (fun h p => (∃ nameOffset start, h = p.header nameOffset start) ∧
        h.contents file = .ok p.content)
      (partHeaders position nameOffset parts) parts := by
  induction parts generalizing before position nameOffset with
  | nil => exact .nil
  | cons p rest ih =>
    -- the padding and the content of a part belong to the bytes before the others
    have hpad : (before ++ List.replicate (p.padding position) 0).length =
        fileHeaderSize + (position + p.padding position) := by
      rw [List.length_append, List.length_replicate, hbefore, Nat.add_assoc]
    rw [partBytes] at hfile
    refine .cons ⟨⟨_, _, rfl⟩, ?_⟩ ?_
    · have hsplit : file = before ++ List.replicate (p.padding position) 0 ++ p.content ++
          (partBytes (position + p.padding position + p.content.length) rest ++ after) := by
        rw [hfile]
        simp only [List.append_assoc]
      have h := range_append hlen hsplit
      rw [hpad] at h
      exact h
    · refine ih (before ++ List.replicate (p.padding position) 0 ++ p.content) _ _ ?_ ?_
      · rw [List.length_append, hpad, Nat.add_assoc]
      · rw [hfile]
        simp only [List.append_assoc]

/-- Every header of a run of parts describes its part, if the names of the parts make up the table
of names. -/
theorem describes_partHeaders {file before after : Bytes} {parts : List Part}
    (hlen : file.length < capacity 64) (hbefore : before.length = fileHeaderSize)
    (hfile : file = before ++ partBytes 0 parts ++ after) :
    List.Forall₂ (Describes file (stringTable (parts.map (·.name)))) (partHeaders 0 1 parts)
      parts := by
  have hcontents := contents_partHeaders hlen parts before after 0 1 hbefore hfile
  have hnames : List.Forall₂
      (fun h p => nameAt (stringTable (parts.map (·.name))) h.name = .ok (untilNul p.name))
      (partHeaders 0 1 parts) parts := by
    have h := nameAt_nameOffsets (parts.map (·.name))
    rwa [← map_name_partHeaders 0, List.forall₂_map_left_iff, List.forall₂_map_right_iff] at h
  refine hcontents.mp ?_ hnames
  intro h p hpart hname
  obtain ⟨⟨_, _, e⟩, hcontents⟩ := hpart
  exact .of_header e hcontents hname

/-! ## The parts of an object -/

section Object

variable (o : Object RelocType)

/-- The index of the symbol table among the section headers. -/
def symbolsIndex : Nat := 1 + o.sections.length + (o.sections.filter (!·.relocs.isEmpty)).length

def symbolsPart : Part :=
  ⟨".symtab", sectionSymbols, 0, symbolsIndex o + 1,
    1 + o.sections.length + (o.symbols.filter (!·.isGlobal)).length, 4, 16,
    (symbolRecords o).flatMap SymbolRecord.bytes⟩

def stringsPart : Part :=
  ⟨".strtab", sectionStrings, 0, 0, 0, 1, 0, stringTable ((orderedSymbols o).map (·.name))⟩

/-- The parts that hold the sections and the relocations. -/
def leadingParts : List Part :=
  o.sections.map sectionPart ++ relaParts o (symbolsIndex o) 0 o.sections

def allParts : List Part :=
  leadingParts o ++ [symbolsPart o, stringsPart o, namesPart (objectParts o)]

theorem objectParts_eq : objectParts o = leadingParts o ++ [symbolsPart o, stringsPart o] := rfl

theorem allParts_eq : objectParts o ++ [namesPart (objectParts o)] = allParts o := by
  rw [objectParts_eq, allParts, List.append_assoc]
  rfl

/-- The names of the sections, as the file stores them. -/
def namesTable : Bytes := stringTable ((allParts o).map (·.name))

theorem content_namesPart : (namesPart (objectParts o)).content = namesTable o := by
  rw [namesTable, ← allParts_eq, List.map_append]
  rfl

/-- The table of the relocations of a section. -/
def relaPart (link index : Nat) (s : Section RelocType) : Part :=
  ⟨".rela" ++ s.name, sectionRela, flagInfoLink, link, index + 1, 4, 12,
    (s.relocs.map (relaRecord o)).flatMap RelaRecord.bytes⟩

theorem relaParts_cons (link index : Nat) (s : Section RelocType)
    (rest : List (Section RelocType)) :
    relaParts o link index (s :: rest) =
      if s.relocs.isEmpty then relaParts o link (index + 1) rest
      else relaPart o link index s :: relaParts o link (index + 1) rest := by
  rw [relaParts, relaPart, List.flatMap_map]

theorem length_relaParts (link index : Nat) (sections : List (Section RelocType)) :
    (relaParts o link index sections).length =
      (sections.filter (!·.relocs.isEmpty)).length := by
  induction sections generalizing index with
  | nil => rfl
  | cons s rest ih =>
    rw [relaParts_cons]
    split
    · next h => simp [ih, h]
    · next h => simp [ih, h]

theorem mem_relaParts {o : Object RelocType} {link index : Nat}
    {sections : List (Section RelocType)} {p : Part} (h : p ∈ relaParts o link index sections) :
    ∃ s ∈ sections, ∃ i < index + sections.length, p = relaPart o link i s := by
  induction sections generalizing index with
  | nil => cases h
  | cons s rest ih =>
    rw [relaParts_cons] at h
    have hrest (hmem : p ∈ relaParts o link (index + 1) rest) :
        ∃ t ∈ s :: rest, ∃ i < index + (s :: rest).length, p = relaPart o link i t := by
      obtain ⟨t, ht, i, hi, e⟩ := ih hmem
      exact ⟨t, List.mem_cons_of_mem _ ht, i, by rw [List.length_cons]; omega, e⟩
    split at h
    · exact hrest h
    · cases h with
      | head => exact ⟨s, List.mem_cons_self, index, by simp, rfl⟩
      | tail _ hmem => exact hrest hmem

theorem length_leadingParts : (leadingParts o).length + 1 = symbolsIndex o := by
  rw [leadingParts, List.length_append, List.length_map, length_relaParts, symbolsIndex]
  omega

end Object

/-! ## Objects that the format holds -/

/-- The limits that the format sets to the size of a file. -/
structure WithinLimits (o : Object RelocType) : Prop where
  fileSize : (writeObject o).length < 0x100000000
  /-- The null header, the sections, the tables of relocations, and three more. -/
  headerCount :
    o.sections.length + (o.sections.filter (!·.relocs.isEmpty)).length + 4 < 0xff00
  /-- The null symbol, the symbols of the sections, and the object's. -/
  symbolCount : 1 + o.sections.length + o.symbols.length < 0x1000000

/-- An object within the limits that refers only to what it has, with addends that fit a word: what
the numbers in the file depend on. -/
structure Sized (o : Object RelocType) : Prop extends WithinLimits o where
  homes : ∀ s ∈ o.symbols, ∀ i, s.home = some i → i < o.sections.length
  listed : ∀ s ∈ o.sections, ∀ r ∈ s.relocs, r.symbol ∈ o.symbols.map (·.name)
  addends : ∀ s ∈ o.sections, ∀ r ∈ s.relocs,
    -0x80000000 ≤ r.addend.toInt ∧ r.addend.toInt < 0x80000000

/-- An object that a file can hold: besides, its sections have different names, every name can be
stored and every symbol has one. -/
structure Writable (o : Object RelocType) : Prop extends Sized o where
  distinctSections : (o.sections.map (·.name)).Nodup
  sectionNames : ∀ s ∈ o.sections, Storable s.name
  symbolNames : ∀ s ∈ o.symbols, Storable s.name ∧ s.name ≠ ""

section Opening

variable {o : Object RelocType}

def headers (o : Object RelocType) : List SectionHeader :=
  nullHeader :: partHeaders 0 1 (allParts o)

/-- The section headers as they stand at the end of the file. -/
def headerTable (o : Object RelocType) : Bytes := (headers o).flatMap SectionHeader.bytes

def body (o : Object RelocType) : Bytes := pad4 (partBytes 0 (allParts o))

def fileHeader (o : Object RelocType) : FileHeader :=
  ⟨typeRelocatable, machine, 0, 0, fileHeaderSize + (body o).length, 0, 0, sectionHeaderSize,
    (headers o).length, (headers o).length - 1⟩

theorem writeObject_eq (o : Object RelocType) :
    writeObject o = (fileHeader o).bytes ++ body o ++ headerTable o := by
  simp only [writeObject, allParts_eq, fileHeader, body, headerTable, headers]

theorem length_headers (o : Object RelocType) : (headers o).length = symbolsIndex o + 3 := by
  have h := length_leadingParts o
  rw [headers, List.length_cons, length_partHeaders, allParts, List.length_append]
  simp only [List.length_cons, List.length_nil]
  omega

theorem Sized.length_headers_lt (h : Sized o) : (headers o).length < 0xff00 := by
  have hcount := h.headerCount
  rw [length_headers, symbolsIndex]
  omega

theorem Sized.length_lt (h : Sized o) : (writeObject o).length < capacity 64 :=
  Nat.lt_trans h.fileSize (by decide)

/-- The file of an object as the reader holds it. -/
def opened (o : Object RelocType) : File :=
  ⟨writeObject o, .elf32, fileHeader o, some (headerTable o)⟩

theorem Sized.fits_fileHeader (h : Sized o) : (fileHeader o).Fits := by
  have hsize := h.fileSize
  have hcount := h.length_headers_lt
  rw [writeObject_eq, List.length_append, List.length_append, length_fileHeader_bytes] at hsize
  constructor <;> simp only [fileHeader, typeRelocatable, machine, sectionHeaderSize] <;> omega

end Opening

/-! ## The headers of an object's file -/

section Pairing

variable {α β : Type} {R : α → β → Prop}

theorem forall_of_forall₂ {P : α → Prop} {l : List α} {m : List β}
    (h : List.Forall₂ R l m) (hP : ∀ b ∈ m, ∀ a, R a b → P a) : ∀ a ∈ l, P a := by
  induction h with
  | nil => simp
  | cons hab _ ih =>
    intro a ha
    cases ha with
    | head => exact hP _ List.mem_cons_self _ hab
    | tail _ ha => exact ih (fun b hb => hP b (List.mem_cons_of_mem _ hb)) a ha

theorem exists_of_forall₂_append {l : List α} {m₁ m₂ : List β} (h : List.Forall₂ R l (m₁ ++ m₂)) :
    ∃ l₁ l₂, l = l₁ ++ l₂ ∧ List.Forall₂ R l₁ m₁ ∧ List.Forall₂ R l₂ m₂ :=
  ⟨_, _, (List.take_append_drop m₁.length l).symm, List.forall₂_take_append l m₁ m₂ h,
    List.forall₂_drop_append l m₁ m₂ h⟩

end Pairing

section Headers

variable {o : Object RelocType}

/-- What holds of every part of an object's file. -/
theorem forall_allParts {P : Part → Prop} (hsection : ∀ s ∈ o.sections, P (sectionPart s))
    (hrela : ∀ s ∈ o.sections, ∀ i < o.sections.length, P (relaPart o (symbolsIndex o) i s))
    (hsymbols : P (symbolsPart o)) (hstrings : P (stringsPart o))
    (hnames : P (namesPart (objectParts o))) : ∀ p ∈ allParts o, P p := by
  intro p hp
  simp only [allParts, leadingParts, List.mem_append, List.mem_map, List.mem_cons,
    List.not_mem_nil, or_false] at hp
  rcases hp with (⟨s, hs, rfl⟩ | hp) | rfl | rfl | rfl
  · exact hsection s hs
  · obtain ⟨s, hs, i, hi, rfl⟩ := mem_relaParts hp
    exact hrela s hs i (by omega)
  · exact hsymbols
  · exact hstrings
  · exact hnames

theorem sectionFlags_lt (k : SectionKind) : sectionFlags k < 8 := by
  cases k <;> decide

theorem Sized.fits_allParts (h : Sized o) : ∀ p ∈ allParts o, p.Fits := by
  have hcount := h.headerCount
  have hsymbols := h.symbolCount
  have hlocals := List.length_filter_le (!·.isGlobal) o.symbols
  refine forall_allParts ?_ ?_ ?_ ?_ ?_
  · intro s _
    have hflags := sectionFlags_lt s.kind
    constructor <;> simp only [sectionPart, sectionProgram] <;> omega
  · intro s _ i hi
    constructor <;> simp only [relaPart, symbolsIndex, sectionRela, flagInfoLink] <;> omega
  · constructor <;> simp only [symbolsPart, symbolsIndex, sectionSymbols] <;> omega
  · constructor <;> simp only [stringsPart, sectionStrings] <;> omega
  · constructor <;> simp only [namesPart, sectionStrings] <;> omega

theorem Sized.describes (h : Sized o) :
    List.Forall₂ (Describes (writeObject o) (namesTable o)) (partHeaders 0 1 (allParts o))
      (allParts o) := by
  have hfile : writeObject o = (fileHeader o).bytes ++ partBytes 0 (allParts o) ++
      (List.replicate (padding4 (partBytes 0 (allParts o)).length) 0 ++ headerTable o) := by
    rw [writeObject_eq, body, pad4]
    simp only [List.append_assoc]
  exact describes_partHeaders h.length_lt (length_fileHeader_bytes _) hfile

/-- The headers in a file, by the parts that they describe. -/
theorem Sized.headers_eq (h : Sized o) : ∃ leading symbols strings names,
    headers o = nullHeader :: (leading ++ [symbols, strings, names]) ∧
    List.Forall₂ (Describes (writeObject o) (namesTable o)) leading (leadingParts o) ∧
    Describes (writeObject o) (namesTable o) symbols (symbolsPart o) ∧
    Describes (writeObject o) (namesTable o) strings (stringsPart o) ∧
    Describes (writeObject o) (namesTable o) names (namesPart (objectParts o)) := by
  obtain ⟨leading, last, hsplit, hleading, hlast⟩ := exists_of_forall₂_append h.describes
  obtain ⟨symbols, _, hsymbols, hlast', rfl⟩ := List.forall₂_cons_right_iff.mp hlast
  obtain ⟨strings, _, hstrings, hlast'', rfl⟩ := List.forall₂_cons_right_iff.mp hlast'
  obtain ⟨names, _, hnames, hnil, rfl⟩ := List.forall₂_cons_right_iff.mp hlast''
  obtain rfl := List.forall₂_nil_right_iff.mp hnil
  exact ⟨leading, symbols, strings, names, by rw [headers, hsplit], hleading, hsymbols, hstrings,
    hnames⟩

theorem Sized.fits_headers (h : Sized o) : ∀ hd ∈ headers o, hd.Fits := by
  obtain ⟨_, _, _, names, _, _, _, _, hnames⟩ := h.headers_eq
  have hlen := hnames.length_content_le
  rw [content_namesPart] at hlen
  intro hd hmem
  cases hmem with
  | head => constructor <;> decide
  | tail _ hmem =>
    refine forall_of_forall₂ h.describes ?_ hd hmem
    intro p hp hd hdescribes
    exact hdescribes.fits (h.fits_allParts p hp) h.fileSize (Nat.lt_of_le_of_lt hlen h.fileSize)

theorem Sized.headed (h : Sized o) : Headed (writeObject o) (fileHeader o) (headers o) where
  length_lt := h.length_lt
  fits := h.fits_fileHeader
  fits_headers := h.fits_headers
  front := ⟨body o ++ headerTable o, by rw [writeObject_eq, List.append_assoc]⟩
  table := by
    refine ⟨(fileHeader o).bytes ++ body o, [], ?_, ?_⟩
    · rw [List.length_append, length_fileHeader_bytes]
      rfl
    · rw [writeObject_eq, List.append_nil]
      rfl
  sectionOffset_ne := by simp [fileHeader, fileHeaderSize]
  sectionCount := rfl
  headers_ne := List.cons_ne_nil _ _
  sectionEntrySize := rfl
  programs := .inl rfl

theorem openFile_writeObject (h : Sized o) : openFile (writeObject o) = .ok (opened o) :=
  h.headed.openFile_eq_ok

theorem sections_opened (h : Sized o) : (opened o).sections (headerTable o) = headers o :=
  h.headed.sections_eq

theorem sectionAt_opened (h : Sized o) {i : Nat} {hd : SectionHeader}
    (hi : (headers o)[i]? = some hd) : (opened o).sectionAt (headerTable o) i = .ok hd :=
  h.headed.sectionAt_eq_ok hi

theorem namedSections_opened (h : Sized o) :
    (opened o).namedSections = .ok (headerTable o, namesTable o) := by
  obtain ⟨leading, symbols, strings, names, heq, -, -, -, hnames⟩ := h.headers_eq
  have hcount := h.length_headers_lt
  have hindex : (fileHeader o).namesIndex = (headers o).length - 1 := rfl
  have hlast : (headers o)[(fileHeader o).namesIndex]? = some names := by
    simp [hindex, heq]
  have hzero : (fileHeader o).namesIndex ≠ 0 := by simp [hindex, heq]
  refine h.headed.namedSections_eq_ok hlast hzero (by omega) ?_
  rw [← content_namesPart]
  exact hnames.contents

end Headers

end Dlx.Elf
