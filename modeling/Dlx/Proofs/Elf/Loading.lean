import Dlx.Elf.Executable
import Dlx.Elf.Writer
import Dlx.Proofs.Elf.Names
import Dlx.Proofs.Elf.Opening

/-!
# Loading an executable

A loader opens the file, goes by the program headers to the segments and copies these into memory.
The section headers describe the same bytes once more, by name. The writer computes all offsets from
the number of section headers before it lays out anything; here they are followed through the file
that it has written.

Results:
* `Headed.programs_eq_ok`: the program headers of a file are read back.
* `headed_writeImage`: the file of an image leads to its headers.
* `range_writeImage`: offsets from the start of the image on lead to the bytes of the image, and
  behind them to the names.
* `writeImage_loads`: the file of an image has one segment, which holds the image, and sections that
  split it into code and data.
-/
namespace Dlx.Elf

/-! ## Program headers -/

/-- A program header of the 32-bit class, in the order of its fields. -/
structure ProgramHeader where
  type : Nat
  offset : Nat
  address : Nat
  physical : Nat
  fileSize : Nat
  memorySize : Nat
  flags : Nat
  align : Nat
  deriving DecidableEq

namespace ProgramHeader

def widths : List Nat := [4, 4, 4, 4, 4, 4, 4, 4]

def ofFields (v : List Nat) : ProgramHeader :=
  let f := fun i => v.getD i 0
  ⟨f 0, f 1, f 2, f 3, f 4, f 5, f 6, f 7⟩

def bytes (p : ProgramHeader) : Bytes :=
  recordBytes
    [(4, p.type), (4, p.offset), (4, p.address), (4, p.physical), (4, p.fileSize),
     (4, p.memorySize), (4, p.flags), (4, p.align)]

/-- The part of the file that is loaded. -/
def contents (p : ProgramHeader) (bs : Bytes) : Except Fault Bytes :=
  range bs p.offset (p.offset + p.fileSize)

/-- The fields of a program header are words. -/
structure Fits (p : ProgramHeader) : Prop where
  type : p.type < 0x100000000
  offset : p.offset < 0x100000000
  address : p.address < 0x100000000
  physical : p.physical < 0x100000000
  fileSize : p.fileSize < 0x100000000
  memorySize : p.memorySize < 0x100000000
  flags : p.flags < 0x100000000
  align : p.align < 0x100000000

end ProgramHeader

/-- The program headers of a file. -/
def File.programs (f : File) : Except Fault (List ProgramHeader) := do
  let h := f.header
  let table ← tableBytes f.data h.programOffset h.programEntrySize h.programCount
  return (records ProgramHeader.widths table).map .ofFields

theorem length_programHeaders (ps : List ProgramHeader) :
    (ps.flatMap ProgramHeader.bytes).length = ps.length * programHeaderSize .elf32 :=
  @length_flatMap_recordBytes _ ProgramHeader.widths _ ps fun _ _ => rfl

theorem ofFields_programHeaders (ps : List ProgramHeader) (hfits : ∀ p ∈ ps, p.Fits) :
    (records ProgramHeader.widths (ps.flatMap ProgramHeader.bytes)).map .ofFields = ps := by
  refine map_records_flatMap (by decide) (fun _ _ => rfl) ?_
  intro p hmem
  have hf := hfits p hmem
  have hcap : capacity (8 * 4) = 0x100000000 := rfl
  simp only [kept, List.map_cons, List.map_nil, ProgramHeader.ofFields, hcap,
    Nat.mod_eq_of_lt hf.type, Nat.mod_eq_of_lt hf.offset, Nat.mod_eq_of_lt hf.address,
    Nat.mod_eq_of_lt hf.physical, Nat.mod_eq_of_lt hf.fileSize, Nat.mod_eq_of_lt hf.memorySize,
    Nat.mod_eq_of_lt hf.flags, Nat.mod_eq_of_lt hf.align]
  rfl

theorem Headed.programs_eq_ok {file : Bytes} {h : FileHeader} {headers : List SectionHeader}
    (hf : Headed file h headers) {ps : List ProgramHeader} (hfits : ∀ p ∈ ps, p.Fits)
    {before after : Bytes} (hfile : file = before ++ ps.flatMap ProgramHeader.bytes ++ after)
    (hoffset : h.programOffset = before.length)
    (hentry : h.programEntrySize = programHeaderSize .elf32) (hcount : h.programCount = ps.length) :
    (opened file h headers).programs = .ok ps := by
  have hrange := range_append hf.length_lt hfile
  rw [length_programHeaders, Nat.mul_comm, ← hoffset, ← hentry, ← hcount] at hrange
  rw [File.programs]
  simp only [tableBytes, hrange, bind, Except.bind]
  exact congrArg Except.ok (ofFields_programHeaders ps hfits)

/-! ## The headers of an executable -/

section Parts

variable (i : Image)

/-- The number of section headers. -/
def imageSectionCount : Nat := if i.textSize.toNat < i.bytes.length then 4 else 3

/-- Where the image starts in its file. -/
def imageOffset : Nat :=
  fileHeaderSize + programHeaderSize .elf32 + imageSectionCount i * sectionHeaderSize

def imageFileHeader : FileHeader :=
  ⟨typeExecutable, machine, i.entry.toNat, fileHeaderSize, fileHeaderSize + programHeaderSize .elf32,
    programHeaderSize .elf32, 1, sectionHeaderSize, imageSectionCount i, imageSectionCount i - 1⟩

def imageSegment : ProgramHeader :=
  ⟨1, imageOffset i, i.base.toNat, i.base.toNat, i.bytes.length, i.bytes.length,
    segmentFlags (i.textSize.toNat < i.bytes.length), 4⟩

def textHeader : SectionHeader :=
  ⟨1, sectionProgram, flagAlloc + flagExec, i.base.toNat, imageOffset i, i.textSize.toNat, 0, 0, 4, 0⟩

/-- The header of the data, if there is any. -/
def dataHeader? : Option SectionHeader :=
  if i.textSize.toNat < i.bytes.length then
    some ⟨7, sectionProgram, flagAlloc + flagWrite, (i.base + i.textSize).toNat,
      imageOffset i + i.textSize.toNat, i.bytes.length - i.textSize.toNat, 0, 0, 4, 0⟩
  else none

def namesHeader : SectionHeader :=
  ⟨13, sectionStrings, 0, 0, imageOffset i + i.bytes.length, executableNames.length, 0, 0, 1, 0⟩

def imageHeaders : List SectionHeader :=
  nullHeader :: textHeader i :: ((dataHeader? i).toList ++ [namesHeader i])

theorem executableSections_eq : executableSections i (imageOffset i) = imageHeaders i := by
  unfold executableSections imageHeaders dataHeader?
  by_cases hdata : i.textSize.toNat < i.bytes.length
  · have hsize : ¬ i.bytes.length - i.textSize.toNat = 0 := by omega
    simp only [if_pos hdata, if_neg hsize]
    rfl
  · have hsize : i.bytes.length - i.textSize.toNat = 0 := by omega
    simp only [if_neg hdata, if_pos hsize]
    rfl

theorem length_imageHeaders : (imageHeaders i).length = imageSectionCount i := by
  unfold imageHeaders dataHeader? imageSectionCount
  split <;> rfl

theorem writeImage_eq : writeImage i = (imageFileHeader i).bytes ++ (imageSegment i).bytes ++
    (imageHeaders i).flatMap SectionHeader.bytes ++ i.bytes ++ executableNames := by
  rw [← executableSections_eq]
  rfl

theorem length_imageSegment_bytes :
    (imageSegment i).bytes.length = programHeaderSize .elf32 := length_recordBytes _

/-- What stands in front of the image is as long as the writer has computed. -/
theorem length_front : ((imageFileHeader i).bytes ++ (imageSegment i).bytes ++
    (imageHeaders i).flatMap SectionHeader.bytes).length = imageOffset i := by
  rw [List.length_append, List.length_append, length_fileHeader_bytes, length_imageSegment_bytes,
    length_sectionHeaders, length_imageHeaders]
  rfl

theorem length_writeImage :
    (writeImage i).length = imageOffset i + i.bytes.length + executableNames.length := by
  rw [writeImage_eq, List.length_append, List.length_append, length_front]

end Parts

section Reading

variable {i : Image}

/-- The offsets that the headers hold lead to where the bytes were written. -/
theorem range_writeImage (hsize : (writeImage i).length < 0x100000000) {before middle after : Bytes}
    (h : i.bytes ++ executableNames = before ++ middle ++ after) :
    range (writeImage i) (imageOffset i + before.length)
      (imageOffset i + before.length + middle.length) = .ok middle := by
  have hsplit : writeImage i = ((imageFileHeader i).bytes ++ (imageSegment i).bytes ++
      (imageHeaders i).flatMap SectionHeader.bytes ++ before) ++ middle ++ after := by
    rw [writeImage_eq, List.append_assoc _ i.bytes, h]
    simp only [List.append_assoc]
  have hrange := range_append (Nat.lt_trans hsize (by decide)) hsplit
  rwa [List.length_append, length_front] at hrange

/-- The offsets of the names, which the writer holds as numbers, are those of the table. -/
theorem nameOffsets_executable : nameOffsets 1 [".text", ".data", ".shstrtab"] = [1, 7, 13] := by
  cbv

theorem nameAt_executableNames : nameAt executableNames 1 = .ok ".text" ∧
    nameAt executableNames 7 = .ok ".data" ∧ nameAt executableNames 13 = .ok ".shstrtab" := by
  have h := nameAt_nameOffsets [".text", ".data", ".shstrtab"]
  rw [nameOffsets_executable] at h
  simp only [List.forall₂_cons, List.forall₂_nil_left_iff, and_true] at h
  obtain ⟨htext, hdata, hstrings⟩ := h
  rw [untilNul_eq_self (by decide)] at htext hdata hstrings
  exact ⟨htext, hdata, hstrings⟩

theorem fits_imageSegment (hsize : (writeImage i).length < 0x100000000) : (imageSegment i).Fits := by
  have hbase := i.base.toNat_lt
  have hflags : segmentFlags (i.textSize.toNat < i.bytes.length) < 8 := by
    unfold segmentFlags
    split <;> decide
  rw [length_writeImage] at hsize
  constructor <;> simp only [imageSegment] <;> omega

theorem mem_imageHeaders {h : SectionHeader} : h ∈ imageHeaders i ↔
    h = nullHeader ∨ h = textHeader i ∨ dataHeader? i = some h ∨ h = namesHeader i := by
  simp only [imageHeaders, List.mem_cons, List.mem_append, Option.mem_toList,
    List.not_mem_nil, or_false]

theorem dataHeader?_eq_some_iff {d : SectionHeader} : dataHeader? i = some d ↔
    i.textSize.toNat < i.bytes.length ∧
      d = ⟨7, sectionProgram, flagAlloc + flagWrite, (i.base + i.textSize).toNat,
        imageOffset i + i.textSize.toNat, i.bytes.length - i.textSize.toNat, 0, 0, 4, 0⟩ := by
  unfold dataHeader?
  split
  · next h => simp [h, eq_comm]
  · next h => simp [h]

/-- All sections are in the file. -/
theorem end_le_of_mem_imageHeaders (htext : i.textSize.toNat ≤ i.bytes.length) {h : SectionHeader}
    (hmem : h ∈ imageHeaders i) : h.offset + h.size ≤ (writeImage i).length := by
  rw [length_writeImage]
  rcases mem_imageHeaders.mp hmem with rfl | rfl | hdata | rfl
  · exact Nat.zero_le _
  · simp only [textHeader]
    omega
  · obtain ⟨-, rfl⟩ := dataHeader?_eq_some_iff.mp hdata
    dsimp only
    omega
  · exact Nat.le_refl _

theorem fits_imageHeaders (htext : i.textSize.toNat ≤ i.bytes.length)
    (hsize : (writeImage i).length < 0x100000000) : ∀ h ∈ imageHeaders i, h.Fits := by
  intro h hmem
  have hend := end_le_of_mem_imageHeaders htext hmem
  have hbase := i.base.toNat_lt
  have hdataBase := (i.base + i.textSize).toNat_lt
  rcases mem_imageHeaders.mp hmem with rfl | rfl | hdata | rfl
  · constructor <;> decide
  · simp only [textHeader] at hend ⊢
    constructor <;> simp only [sectionProgram, flagAlloc, flagExec] <;> omega
  · obtain ⟨-, rfl⟩ := dataHeader?_eq_some_iff.mp hdata
    dsimp only at hend
    constructor <;> simp only [sectionProgram, flagAlloc, flagWrite] <;> omega
  · simp only [namesHeader] at hend ⊢
    constructor <;> simp only [sectionStrings] <;> omega

theorem imageSectionCount_cases (i : Image) :
    imageSectionCount i = 3 ∨ imageSectionCount i = 4 := by
  unfold imageSectionCount
  split
  · exact .inr rfl
  · exact .inl rfl

theorem headed_writeImage (htext : i.textSize.toNat ≤ i.bytes.length)
    (hsize : (writeImage i).length < 0x100000000) :
    Headed (writeImage i) (imageFileHeader i) (imageHeaders i) where
  length_lt := Nat.lt_trans hsize (by decide)
  fits := by
    have hentry := i.entry.toNat_lt
    have hcount := imageSectionCount_cases i
    constructor <;> simp only [imageFileHeader, typeExecutable, machine, fileHeaderSize,
      programHeaderSize, sectionHeaderSize] <;> omega
  fits_headers := fits_imageHeaders htext hsize
  front := ⟨_, by rw [writeImage_eq, List.append_assoc, List.append_assoc, List.append_assoc]⟩
  table := by
    refine ⟨(imageFileHeader i).bytes ++ (imageSegment i).bytes, i.bytes ++ executableNames, ?_, ?_⟩
    · rw [List.length_append, length_fileHeader_bytes, length_imageSegment_bytes]
      rfl
    · rw [writeImage_eq, List.append_assoc _ i.bytes]
  sectionOffset_ne := by simp [imageFileHeader, fileHeaderSize]
  sectionCount := (length_imageHeaders i).symm
  headers_ne := List.cons_ne_nil _ _
  sectionEntrySize := rfl
  programs := by
    have hcount : (1 : Nat) < 0xffff := by decide
    have hend : fileHeaderSize + programHeaderSize .elf32 * 1 ≤ (writeImage i).length := by
      rw [length_writeImage, imageOffset]
      omega
    exact .inr ⟨hcount, rfl, hend⟩

/-! ## What a loader finds -/

/-- The only segment of a file is to be loaded at an address and holds some bytes. -/
def File.LoadsAt (f : File) (address : Nat) (bs : Bytes) : Prop :=
  ∃ p, f.programs = .ok [p] ∧ p.type = 1 ∧ p.address = address ∧ p.memorySize = p.fileSize ∧
    p.contents f.data = .ok bs

/-- A section header leads to a name and to a content. -/
structure File.Leads (f : File) (names : Bytes) (h : SectionHeader) (name : String)
    (content : Bytes) : Prop where
  name : nameAt names h.name = .ok name
  content : h.contents f.data = .ok content

/-- The sections of a file behind the null header: code, data if there is any, and the names of
the sections. -/
structure File.Sectioned (f : File) (text : SectionHeader) (data? : Option SectionHeader)
    (code data : Bytes) : Prop where
  found : ∃ table names strings, f.namedSections = .ok (table, names) ∧
    f.sections table = nullHeader :: text :: (data?.toList ++ [strings]) ∧
    (∀ h ∈ f.sections table, h.offset + h.size ≤ f.data.length) ∧
    f.Leads names text ".text" code ∧ (∀ d ∈ data?, f.Leads names d ".data" data) ∧
    f.Leads names strings ".shstrtab" names
  present : data?.isSome ↔ data ≠ []
  adjacent : ∀ d ∈ data?, d.offset = text.offset + text.size

theorem loadsAt_opened (htext : i.textSize.toNat ≤ i.bytes.length)
    (hsize : (writeImage i).length < 0x100000000) :
    (Headed.opened (writeImage i) (imageFileHeader i) (imageHeaders i)).LoadsAt i.base.toNat
      i.bytes := by
  have hprograms : writeImage i = (imageFileHeader i).bytes ++
      [imageSegment i].flatMap ProgramHeader.bytes ++
      ((imageHeaders i).flatMap SectionHeader.bytes ++ (i.bytes ++ executableNames)) := by
    rw [writeImage_eq, List.flatMap_singleton]
    simp only [List.append_assoc]
  have hfits : ∀ p ∈ [imageSegment i], p.Fits := by
    intro p hp
    rw [List.mem_singleton.mp hp]
    exact fits_imageSegment hsize
  have himage : i.bytes ++ executableNames = [] ++ i.bytes ++ executableNames := rfl
  exact ⟨imageSegment i, (headed_writeImage htext hsize).programs_eq_ok hfits hprograms
    (length_fileHeader_bytes _).symm rfl rfl, rfl, rfl, rfl, range_writeImage hsize himage⟩

theorem sectioned_opened (hsize : (writeImage i).length < 0x100000000) {code data : Bytes}
    (hbytes : i.bytes = code ++ data) (hcode : code.length = i.textSize.toNat) :
    (Headed.opened (writeImage i) (imageFileHeader i) (imageHeaders i)).Sectioned (textHeader i)
      (dataHeader? i) code data := by
  have hlength : i.bytes.length = i.textSize.toNat + data.length := by
    rw [hbytes, List.length_append, hcode]
  have htext : i.textSize.toNat ≤ i.bytes.length := by omega
  have hheaded := headed_writeImage htext hsize
  obtain ⟨htextName, hdataName, hstringsName⟩ := nameAt_executableNames
  have hcodeRange : (textHeader i).contents (writeImage i) = .ok code := by
    have hsplit : i.bytes ++ executableNames = [] ++ code ++ (data ++ executableNames) := by
      rw [hbytes, List.append_assoc, List.nil_append]
    have hrange := range_writeImage hsize hsplit
    rwa [hcode] at hrange
  have hdataRange : ∀ d ∈ dataHeader? i, d.contents (writeImage i) = .ok data := by
    intro d hd
    obtain ⟨-, rfl⟩ := dataHeader?_eq_some_iff.mp hd
    have hrange := range_writeImage hsize (congrArg (· ++ executableNames) hbytes)
    rw [hcode] at hrange
    rwa [SectionHeader.contents, hlength, Nat.add_sub_cancel_left]
  have hnamesRange : (namesHeader i).contents (writeImage i) = .ok executableNames :=
    range_writeImage hsize (List.append_nil _).symm
  refine ⟨⟨_, executableNames, namesHeader i, ?_, hheaded.sections_eq, ?_, ⟨htextName, hcodeRange⟩,
    fun d hd => ⟨?_, hdataRange d hd⟩, ⟨hstringsName, hnamesRange⟩⟩, ?_, ?_⟩
  · -- the last header is the one whose index the file header holds
    have hcount := imageSectionCount_cases i
    have hindex : (imageFileHeader i).namesIndex = imageSectionCount i - 1 := rfl
    have hlast : (imageHeaders i)[(imageFileHeader i).namesIndex]? = some (namesHeader i) := by
      rw [hindex, ← length_imageHeaders, ← List.getLast?_eq_getElem?, imageHeaders,
        ← List.cons_append, ← List.cons_append, List.getLast?_concat]
    exact hheaded.namedSections_eq_ok hlast (by omega) (by omega) hnamesRange
  · intro h hmem
    rw [hheaded.sections_eq] at hmem
    exact end_le_of_mem_imageHeaders htext hmem
  · obtain ⟨-, rfl⟩ := dataHeader?_eq_some_iff.mp hd
    exact hdataName
  · rw [dataHeader?, ← List.length_pos_iff]
    split
    · next h => simp only [Option.isSome_some, true_iff]; omega
    · next h => simp only [Option.isSome_none, Bool.false_eq_true, false_iff]; omega
  · intro d hd
    obtain ⟨-, rfl⟩ := dataHeader?_eq_some_iff.mp hd
    rfl

/-- The file of an image loads as the image: its segment holds all bytes and its sections split them
into the code, at the base address, and the data, at the address behind the code. -/
theorem writeImage_loads (i : Image) (htext : i.textSize.toNat ≤ i.bytes.length)
    (hsize : (writeImage i).length < 0x100000000) :
    ∃ f, openFile (writeImage i) = .ok f ∧ f.data = writeImage i ∧ f.cls = .elf32 ∧
      f.header.type = 2 ∧ f.header.machine = 0x5aa5 ∧ f.header.entry = i.entry.toNat ∧
      f.LoadsAt i.base.toNat i.bytes ∧
      ∃ text data? code data, f.Sectioned text data? code data ∧
        i.bytes = code ++ data ∧ code.length = i.textSize.toNat ∧
        text.address = i.base.toNat ∧
        ∀ d ∈ data?, d.address = (i.base.toNat + i.textSize.toNat) % 0x100000000 := by
  have hsplit := (List.take_append_drop i.textSize.toNat i.bytes).symm
  have hcode : (i.bytes.take i.textSize.toNat).length = i.textSize.toNat := by
    rw [List.length_take, Nat.min_eq_left htext]
  refine ⟨_, (headed_writeImage htext hsize).openFile_eq_ok, rfl, rfl, rfl, rfl, rfl,
    loadsAt_opened htext hsize, _, _, _, _, sectioned_opened hsize hsplit hcode, hsplit, hcode, rfl,
    ?_⟩
  intro d hd
  obtain ⟨-, rfl⟩ := dataHeader?_eq_some_iff.mp hd
  exact UInt32.toNat_add _ _

/-- Three bytes of code and one of data, which stands behind the last address. -/
def wrappedImage : Image := ⟨0xfffffffe, 0xfffffffe, 3, [1, 2, 3, 4], .empty⟩

theorem writeImage_loads_wrappedImage :
    wrappedImage.textSize.toNat ≤ wrappedImage.bytes.length ∧
    (writeImage wrappedImage).length < 0x100000000 ∧
    ∃ f, openFile (writeImage wrappedImage) = .ok f ∧ f.LoadsAt 0xfffffffe [1, 2, 3, 4] ∧
      ∃ text d, f.Sectioned text (some d) [1, 2, 3] [4] ∧ text.address = 0xfffffffe ∧
        d.address = 1 := by
  have htext : wrappedImage.textSize.toNat ≤ wrappedImage.bytes.length := by decide
  have hsize : (writeImage wrappedImage).length < 0x100000000 := by
    rw [length_writeImage]
    decide
  obtain ⟨f, hopen, -, -, -, -, -, hloads, text, data?, code, data, hsections, hbytes, hcode, haddress,
    hdata⟩ := writeImage_loads wrappedImage htext hsize
  have hsplit : [1, 2, 3] ++ [4] = code ++ data := hbytes
  obtain ⟨rfl, rfl⟩ := List.append_inj hsplit hcode.symm
  obtain ⟨d, rfl⟩ := Option.isSome_iff_exists.mp (hsections.present.mpr (List.cons_ne_nil _ _))
  exact ⟨htext, hsize, f, hopen, hloads, text, d, hsections, haddress, hdata d rfl⟩

end Reading

end Dlx.Elf
