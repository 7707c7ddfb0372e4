import Dlx.Elf.Record
import Dlx.Link.Image

/-!
# Writing executables

An image is written as a 32-bit executable: file header, one program header that loads the whole
image at its base, the section headers, the image, and the names of the sections. There is a section
for data only if bytes follow the code.
-/
namespace Dlx.Elf

/-- A program header of the 32-bit class for a loaded segment whose memory is all in the file. -/
def segmentBytes (offset address size flags : Nat) : Bytes :=
  recordBytes
    [(4, 1), (4, offset), (4, address), (4, address), (4, size), (4, size), (4, flags), (4, 4)]

/-- The names of the sections of an executable. -/
def executableNames : Bytes := stringTable [".text", ".data", ".shstrtab"]

/-- Segments are readable and executable, and with data also writable. -/
def segmentFlags (hasData : Bool) : Nat := if hasData then 7 else 5

/-- The section headers of an executable whose image stands at `offset` in the file. -/
def executableSections (i : Image) (offset : Nat) : List SectionHeader :=
  let textSize := i.textSize.toNat
  let dataSize := i.bytes.length - textSize
  let dataAddress := (i.base + i.textSize).toNat
  let data : SectionHeader :=
    ⟨7, sectionProgram, flagAlloc + flagWrite, dataAddress, offset + textSize, dataSize, 0, 0, 4, 0⟩
  [⟨0, 0, 0, 0, 0, 0, 0, 0, 0, 0⟩,
    ⟨1, sectionProgram, flagAlloc + flagExec, i.base.toNat, offset, textSize, 0, 0, 4, 0⟩] ++
    (if dataSize = 0 then [] else [data]) ++
    [⟨13, sectionStrings, 0, 0, offset + i.bytes.length, executableNames.length, 0, 0, 1, 0⟩]

/-- The file of an image. -/
def writeImage (i : Image) : Bytes :=
  let hasData := i.textSize.toNat < i.bytes.length
  let count := if hasData then 4 else 3
  let programOffset := fileHeaderSize
  let sectionOffset := programOffset + programHeaderSize .elf32
  let imageOffset := sectionOffset + count * sectionHeaderSize
  let header : FileHeader :=
    ⟨typeExecutable, machine, i.entry.toNat, programOffset, sectionOffset, programHeaderSize .elf32,
      1, sectionHeaderSize, count, count - 1⟩
  header.bytes ++ segmentBytes imageOffset i.base.toNat i.bytes.length (segmentFlags hasData) ++
    (executableSections i imageOffset).flatMap SectionHeader.bytes ++ i.bytes ++ executableNames

end Dlx.Elf
