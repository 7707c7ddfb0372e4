import Dlx.Elf.Record
import Dlx.Object

/-!
# Reading objects

`readObject` reads a relocatable file, of either class, for the linker: the allocated sections that
have contents, the symbols, and the relocations of those sections. A symbol that stands for a
section gets the name of that section.
-/
namespace Dlx.Elf

/-- Why a section cannot be linked. -/
inductive Unsupported where
  | noBits
  | compressed
  | relWithoutAddends
  deriving DecidableEq

def Unsupported.message : Unsupported → String
  | .noBits => "NOBITS sections are not supported"
  | .compressed => "compressed sections are not supported"
  | .relWithoutAddends => "REL relocations without addends are not supported"

inductive ReadError where
  | malformed (fault : Fault)
  | notRelocatable (type : Nat)
  | wrongMachine (machine : Nat)
  | unsupportedSection (name : String) (reason : Unsupported)
  deriving DecidableEq

def ReadError.message : ReadError → String
  | .malformed fault => "malformed object: " ++ fault.message
  | .notRelocatable type => "not a relocatable object (e_type " ++ Text.decimal type ++ ")"
  | .wrongMachine machine => "object is for machine 0x" ++ Text.hex 0 machine ++ ", not DLX"
  | .unsupportedSection name reason => "section " ++ name ++ ": " ++ reason.message

/-- A file with its header and the table of its section headers. -/
structure File where
  data : Bytes
  cls : Class
  header : FileHeader
  /-- The bytes of the section headers, unless there is no table. -/
  sectionTable : Option Bytes

/-! ## Opening a file -/

/-- Checks the first sixteen bytes and gives the class. -/
def readIdent (bs : Bytes) : Except Fault Class := do
  let start ← range bs 0 16
  let byte := fun i => (start.getD i 0).toNat
  if start.take 4 ≠ ident.take 4 then throw (.badMagic (start.take 4))
  if byte 6 ≠ 1 then throw (.badVersion (byte 6))
  let cls ← match byte 4 with
    | 1 => pure Class.elf32
    | 2 => pure Class.elf64
    | n => throw (.badClass n)
  if byte 5 ≠ 1 then throw (.badEndianness (byte 5))
  return cls

def readSectionHeader (bs : Bytes) (cls : Class) (offset : Nat) : Except Fault SectionHeader := do
  return .ofFields (← readFields bs offset (SectionHeader.widths cls))

/-- The bytes of a table of `count` entries. -/
def tableBytes (bs : Bytes) (offset entrySize count : Nat) : Except Fault Bytes :=
  range bs offset (offset + entrySize * count)

/-- The section headers; a count of zero stands for the size in the first header. -/
def readSectionTable (bs : Bytes) (cls : Class) (h : FileHeader) : Except Fault (Option Bytes) := do
  if h.sectionOffset = 0 then return none
  let count ←
    if h.sectionCount = 0 then
      pure (← readSectionHeader bs cls h.sectionOffset).size
    else pure h.sectionCount
  let entrySize := recordSize (SectionHeader.widths cls)
  if h.sectionEntrySize ≠ entrySize then throw (.badEntrySize entrySize h.sectionEntrySize)
  return some (← tableBytes bs h.sectionOffset entrySize count)

/-- The program headers are not used, but they must lie in the file. -/
def checkProgramTable (bs : Bytes) (cls : Class) (h : FileHeader) : Except Fault Unit := do
  if h.programOffset = 0 then return ()
  let count ←
    if h.programCount = 0xffff then
      pure (← readSectionHeader bs cls h.sectionOffset).info
    else pure h.programCount
  let entrySize := programHeaderSize cls
  if h.programEntrySize ≠ entrySize then throw (.badEntrySize entrySize h.programEntrySize)
  let _ ← tableBytes bs h.programOffset entrySize count
  return ()

def openFile (bs : Bytes) : Except Fault File := do
  let cls ← readIdent bs
  let widths := FileHeader.widths cls
  let header := FileHeader.ofFields (readValues widths (← range bs 16 (16 + recordSize widths)))
  let sectionTable ← readSectionTable bs cls header
  checkProgramTable bs cls header
  return ⟨bs, cls, header, sectionTable⟩

/-! ## Sections -/

/-- Where the contents of a section are said to lie. -/
def SectionHeader.contents (h : SectionHeader) (bs : Bytes) : Except Fault Bytes :=
  range bs h.offset (h.offset + h.size)

/-- The section header with an index. -/
def File.sectionAt (f : File) (table : Bytes) (index : Nat) : Except Fault SectionHeader := do
  return .ofFields (← recordAt (SectionHeader.widths f.cls) table index)

def File.sections (f : File) (table : Bytes) : List SectionHeader :=
  (records (SectionHeader.widths f.cls) table).map .ofFields

/-- The section headers and the table of their names. -/
def File.namedSections (f : File) : Except Fault (Bytes × Bytes) := do
  let some table := f.sectionTable | throw .noSectionHeaders
  if f.header.namesIndex = 0 then throw .noSectionHeaders
  let index ←
    if f.header.namesIndex = 0xffff then pure (← f.sectionAt table 0).link
    else pure f.header.namesIndex
  return (table, ← (← f.sectionAt table index).contents f.data)

/-- The data of a section, and whether it is compressed; a compression header is skipped. -/
def File.sectionData (f : File) (h : SectionHeader) : Except Fault (Bytes × Bool) := do
  if h.type = sectionNoBits then return ([], false)
  let bs ← h.contents f.data
  if hasFlag h.flags flagCompressed then
    let widths := compressionWidths f.cls
    let _ ← readFields bs 0 widths
    return (bs.drop (recordSize widths), true)
  return (bs, false)

/-- A section of the object, if the header with this name describes one. -/
def readSection? (f : File) (names : Bytes) (h : SectionHeader) :
    Except ReadError (Option (Section UInt32)) := do
  if !hasFlag h.flags flagAlloc then return none
  let name ← (nameAt names h.name).mapError .malformed
  if h.type = sectionNoBits then throw (.unsupportedSection name .noBits)
  if h.type ≠ sectionProgram then return none
  let (data, compressed) ← (f.sectionData h).mapError .malformed
  if compressed then throw (.unsupportedSection name .compressed)
  return some ⟨name, if hasFlag h.flags flagExec then .text else .data, data, []⟩

/-- The sections of the object, each with the index of its header. -/
def readSections (f : File) (names : Bytes) :
    Nat → List SectionHeader → Except ReadError (List (Nat × Section UInt32))
  | _, [] => .ok []
  | index, h :: rest => do
    let found ← readSection? f names h
    let more ← readSections f names (index + 1) rest
    return match found with
      | some s => (index, s) :: more
      | none => more

/-- The place among the object's sections of the header with an index. -/
def homeOf (sections : List (Nat × Section UInt32)) (index : Nat) : Option Nat :=
  sections.findIdx? (·.1 = index)

/-! ## Symbols -/

/-- What the symbol table gives: the name of each entry, and the symbols of the object. -/
structure SymbolsRead where
  names : List String
  symbols : List Symbol

/-- Reads an entry of the symbol table. A section's symbol is added once, as a local symbol. -/
def readSymbol (sections : List (Nat × Section UInt32)) (strings : Bytes) (so : SymbolsRead)
    (r : SymbolRecord) : Except ReadError SymbolsRead := do
  let home := homeOf sections r.sectionIndex
  if r.info % 16 = 3 then
    match home.bind fun i => sections[i]?.map fun s => (i, s.2.name) with
    | none => return ⟨so.names ++ [""], so.symbols⟩
    | some (i, name) =>
      if so.symbols.any (·.name = name) then return ⟨so.names ++ [name], so.symbols⟩
      else return ⟨so.names ++ [name], so.symbols ++ [⟨name, some i, 0, false⟩]⟩
  else
    let name ← (nameAt strings r.name).mapError .malformed
    if name.isEmpty then return ⟨so.names ++ [name], so.symbols⟩
    else
      let symbol := ⟨name, home, UInt32.ofNat r.value, r.info / 16 ≠ 0⟩
      return ⟨so.names ++ [name], so.symbols ++ [symbol]⟩

def readSymbolsFrom (sections : List (Nat × Section UInt32)) (strings : Bytes) :
    List SymbolRecord → SymbolsRead → Except ReadError SymbolsRead
  | [], so => .ok so
  | r :: rest, so => do readSymbolsFrom sections strings rest (← readSymbol sections strings so r)

/-- The first symbol table and its names, if there is one. -/
def File.symbolTable? (f : File) (table : Bytes) :
    Except Fault (Option (List SymbolRecord × Bytes)) := do
  let some h := (f.sections table).find? (·.type = sectionSymbols) | return none
  let strings ← f.sectionAt table h.link
  let widths := SymbolRecord.widths f.cls
  let entrySize := recordSize widths
  if h.entrySize ≠ entrySize then throw (.badEntrySize entrySize h.entrySize)
  let symbolBytes ← h.contents f.data
  let stringBytes ← strings.contents f.data
  return some ((records widths symbolBytes).map (.ofFields f.cls), stringBytes)

/-! ## Relocations -/

def readReloc (names : List String) (r : RelaRecord) : Except ReadError (Reloc UInt32) :=
  match names[r.symbol]? with
  | some symbol => .ok ⟨UInt32.ofNat r.offset, symbol, UInt32.ofNat r.type, r.addend⟩
  | none => .error (.malformed (.badSymbolIndex r.symbol))

def readRelocList (names : List String) : List RelaRecord → Except ReadError (List (Reloc UInt32))
  | [] => .ok []
  | r :: rest => do return (← readReloc names r) :: (← readRelocList names rest)

/-- Adds the relocations of each table to the section that it is for. -/
def readRelocs (f : File) (sectionNames : Bytes) (names : List String) :
    List SectionHeader → List (Nat × Section UInt32) →
      Except ReadError (List (Nat × Section UInt32))
  | [], sections => .ok sections
  | h :: rest, sections => do
    if h.type = sectionRel then
      let name ← (nameAt sectionNames h.name).mapError .malformed
      throw (.unsupportedSection name .relWithoutAddends)
    else if h.type ≠ sectionRela then readRelocs f sectionNames names rest sections
    else
      match homeOf sections h.info with
      | none => readRelocs f sectionNames names rest sections
      | some home =>
        let (data, _) ← (f.sectionData h).mapError .malformed
        let relas := (records (RelaRecord.widths f.cls) data).map (.ofFields f.cls)
        let relocs ← readRelocList names relas
        readRelocs f sectionNames names rest
          (sections.modify home fun (i, s) => (i, { s with relocs := s.relocs ++ relocs }))

/-- Reads an object for the linker. -/
def readObject (bs : Bytes) : Except ReadError (Object UInt32) := do
  let f ← (openFile bs).mapError .malformed
  if f.header.type ≠ typeRelocatable then throw (.notRelocatable f.header.type)
  if f.header.machine ≠ machine then throw (.wrongMachine f.header.machine)
  let (table, names) ← f.namedSections.mapError .malformed
  let headers := f.sections table
  let sections ← readSections f names 0 headers
  let so ← match ← (f.symbolTable? table).mapError .malformed with
    | none => pure ⟨[], []⟩
    | some (entries, strings) => readSymbolsFrom sections strings entries ⟨[], []⟩
  let sections ← readRelocs f names so.names headers sections
  return ⟨sections.map (·.2), so.symbols⟩

end Dlx.Elf
