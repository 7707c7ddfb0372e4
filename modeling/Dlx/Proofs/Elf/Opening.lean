import Dlx.Elf.Reader
import Dlx.Proofs.Elf.Tables

/-!
# Opening a file

A file is opened by what its header says: where the section headers and the program headers stand,
and how many there are. The header of an object file and that of an executable say it of different
layouts; `Headed` is what they have in common.

Results:
* `Headed.openFile_eq_ok`: such a file is opened, with the header that was written.
* `Headed.sections_eq`, `Headed.sectionAt_eq_ok`: its section headers are those that were written.
* `Headed.namedSections_eq_ok`: its section names are found.
-/
namespace Dlx.Elf

theorem length_fileHeader_bytes (h : FileHeader) : h.bytes.length = fileHeaderSize := by
  rw [FileHeader.bytes_eq, List.length_append, FileHeader.length_record]
  rfl

/-- A file of the 32-bit class with a header in front that leads to the section headers, and to
program headers if there are any. -/
structure Headed (file : Bytes) (h : FileHeader) (headers : List SectionHeader) : Prop where
  length_lt : file.length < 0x10000000000000000
  fits : h.Fits
  fits_headers : ∀ hd ∈ headers, hd.Fits
  front : ∃ rest, file = h.bytes ++ rest
  table : ∃ before after, before.length = h.sectionOffset ∧
    file = before ++ headers.flatMap SectionHeader.bytes ++ after
  sectionOffset_ne : h.sectionOffset ≠ 0
  sectionCount : h.sectionCount = headers.length
  headers_ne : headers ≠ []
  sectionEntrySize : h.sectionEntrySize = sectionHeaderSize
  programs : h.programOffset = 0 ∨ h.programCount < 0xffff ∧
    h.programEntrySize = programHeaderSize .elf32 ∧
    h.programOffset + programHeaderSize .elf32 * h.programCount ≤ file.length

namespace Headed

variable {file : Bytes} {h : FileHeader} {headers : List SectionHeader}

/-- The file as the reader holds it. -/
abbrev opened (file : Bytes) (h : FileHeader) (headers : List SectionHeader) : File :=
  ⟨file, .elf32, h, some (headers.flatMap SectionHeader.bytes)⟩

theorem readIdent_eq_ok (hf : Headed file h headers) : readIdent file = .ok .elf32 := by
  obtain ⟨rest, hfile⟩ := hf.front
  have hsplit : file = [] ++ ident ++ (h.record ++ rest) := by
    rw [hfile, FileHeader.bytes_eq, List.nil_append, List.append_assoc]
  have hrange : range file 0 16 = .ok ident := range_append hf.length_lt hsplit
  rw [readIdent, hrange]
  rfl

theorem readSectionTable_eq_ok (hf : Headed file h headers) :
    readSectionTable file .elf32 h = .ok (some (headers.flatMap SectionHeader.bytes)) := by
  obtain ⟨before, after, hbefore, hfile⟩ := hf.table
  have htable := range_append hf.length_lt hfile
  have hlen : (headers.flatMap SectionHeader.bytes).length =
      recordSize (SectionHeader.widths .elf32) * h.sectionCount := by
    rw [length_sectionHeaders, Nat.mul_comm, hf.sectionCount]
    rfl
  rw [hbefore, hlen] at htable
  have hcount : h.sectionCount ≠ 0 := by
    rw [hf.sectionCount]
    exact fun h0 => hf.headers_ne (List.length_eq_zero_iff.mp h0)
  have hentry : ¬ h.sectionEntrySize ≠ recordSize (SectionHeader.widths .elf32) :=
    fun hne => hne hf.sectionEntrySize
  rw [readSectionTable, if_neg hf.sectionOffset_ne, if_neg hcount]
  simp only [pure_bind, if_neg hentry, tableBytes, htable]
  rfl

theorem checkProgramTable_eq_ok (hf : Headed file h headers) :
    checkProgramTable file .elf32 h = .ok () := by
  unfold checkProgramTable
  rcases hf.programs with h0 | ⟨hcount, hentry, hin⟩
  · rw [if_pos h0]
    rfl
  · by_cases h0 : h.programOffset = 0
    · rw [if_pos h0]
      rfl
    · obtain ⟨table, htable⟩ : ∃ table, range file h.programOffset
          (h.programOffset + programHeaderSize .elf32 * h.programCount) = .ok table :=
        ⟨_, range_eq_ok_iff.mpr ⟨Nat.lt_of_le_of_lt hin hf.length_lt, hin, rfl⟩⟩
      rw [if_neg h0, if_neg (by omega)]
      simp only [pure_bind, if_neg (not_not_intro hentry), tableBytes, htable]
      rfl

theorem openFile_eq_ok (hf : Headed file h headers) :
    openFile file = .ok (opened file h headers) := by
  obtain ⟨rest, hfile⟩ := hf.front
  have hrecord := range_append hf.length_lt (FileHeader.bytes_eq h ▸ hfile)
  rw [FileHeader.length_record] at hrecord
  have hrange : range file 16 (16 + recordSize (FileHeader.widths .elf32)) = .ok h.record := hrecord
  rw [openFile, hf.readIdent_eq_ok]
  simp only [bind, Except.bind, hrange, ofFields_fileHeader _ hf.fits, hf.readSectionTable_eq_ok,
    hf.checkProgramTable_eq_ok]
  rfl

theorem sections_eq (hf : Headed file h headers) :
    (opened file h headers).sections (headers.flatMap SectionHeader.bytes) = headers :=
  ofFields_sectionHeaders headers hf.fits_headers

theorem sectionAt_eq_ok (hf : Headed file h headers) {i : Nat} {hd : SectionHeader}
    (hi : headers[i]? = some hd) :
    (opened file h headers).sectionAt (headers.flatMap SectionHeader.bytes) i = .ok hd := by
  obtain ⟨before, after, -, hfile⟩ := hf.table
  have hlen : (headers.flatMap SectionHeader.bytes).length < capacity 64 := by
    have hlt := hf.length_lt
    rw [hfile, List.length_append, List.length_append] at hlt
    rw [show capacity 64 = 0x10000000000000000 from rfl]
    omega
  rw [← hf.sections_eq, File.sections, List.getElem?_map, Option.map_eq_some_iff] at hi
  obtain ⟨values, hvalues, rfl⟩ := hi
  rw [File.sectionAt, recordAt_eq_ok hlen hvalues]
  rfl

theorem namedSections_eq_ok (hf : Headed file h headers) {hd : SectionHeader} {names : Bytes}
    (hi : headers[h.namesIndex]? = some hd) (hzero : h.namesIndex ≠ 0)
    (hlast : h.namesIndex ≠ 0xffff) (hnames : hd.contents file = .ok names) :
    (opened file h headers).namedSections = .ok (headers.flatMap SectionHeader.bytes, names) := by
  rw [File.namedSections]
  simp only [if_neg hzero, if_neg hlast, pure_bind, hf.sectionAt_eq_ok hi]
  simp only [bind, Except.bind, hnames]
  rfl

end Headed

end Dlx.Elf
