import Dlx.Elf.Record
import Dlx.Object

/-!
# Writing objects

An object is written as a 32-bit relocatable file: the file header, the contents of the sections,
and the section headers. After the null header come the object's sections, a table of relocations for
each section that has some, the symbols, their names, and the names of the sections.
-/
namespace Dlx.Elf

/-- A section of the file: its header but for the place of name and content, and its content. -/
structure Part where
  name : String
  type : Nat
  flags : Nat
  link : Nat
  info : Nat
  /-- One, or four to start at a multiple of four. -/
  align : Nat
  entrySize : Nat
  content : Bytes
  deriving DecidableEq

/-- Zero bytes in front of a part that would start at `position`. -/
def Part.padding (p : Part) (position : Nat) : Nat := if p.align = 4 then padding4 position else 0

/-- The header of a part at a position in the body. -/
def Part.header (p : Part) (nameOffset position : Nat) : SectionHeader :=
  ⟨nameOffset, p.type, p.flags, 0, fileHeaderSize + position, p.content.length, p.link, p.info,
    p.align, p.entrySize⟩

/-- The headers of parts that are laid out from `position` on. -/
def partHeaders (position nameOffset : Nat) : List Part → List SectionHeader
  | [] => []
  | p :: rest =>
    let start := position + p.padding position
    p.header nameOffset start ::
      partHeaders (start + p.content.length) (nameOffset + (Text.encodeUtf8 p.name).length + 1) rest

/-- The contents of parts that are laid out from `position` on. -/
def partBytes (position : Nat) : List Part → Bytes
  | [] => []
  | p :: rest =>
    let pad := p.padding position
    List.replicate pad 0 ++ p.content ++ partBytes (position + pad + p.content.length) rest

def sectionFlags : SectionKind → Nat
  | .text => flagAlloc + flagExec
  | .data => flagAlloc + flagWrite

def sectionPart (s : Section RelocType) : Part :=
  ⟨s.name, sectionProgram, sectionFlags s.kind, 0, 0, 4, 0, s.data⟩

/-- The order of the symbols in a file: local ones first. -/
def orderedSymbols (o : Object RelocType) : List Symbol :=
  o.symbols.filter (!·.isGlobal) ++ o.symbols.filter (·.isGlobal)

/-- The symbol that stands for the section with an index. -/
def sectionSymbol (index : Nat) : SymbolRecord := ⟨0, 0, 3, index + 1⟩

def symbolRecord (s : Symbol) (nameOffset : Nat) : SymbolRecord :=
  ⟨nameOffset, s.value.toNat, if s.isGlobal then 16 else 0, (s.home.map (· + 1)).getD 0⟩

/-- The null symbol, a symbol for each section, and the object's symbols. -/
def symbolRecords (o : Object RelocType) : List SymbolRecord :=
  let symbols := orderedSymbols o
  ⟨0, 0, 0, 0⟩ :: (List.range o.sections.length).map sectionSymbol ++
    symbols.zipWith symbolRecord (nameOffsets 1 (symbols.map (·.name)))

/-- The last index, counting from `index`, of a symbol of this name; zero if there is none. -/
def symbolIndex (name : String) (index : Nat) : List Symbol → Nat
  | [] => 0
  | s :: rest =>
    let later := symbolIndex name (index + 1) rest
    if later = 0 ∧ s.name = name then index else later

def relaRecord (o : Object RelocType) (r : Reloc RelocType) : RelaRecord :=
  ⟨r.offset.toNat, symbolIndex r.symbol (1 + o.sections.length) (orderedSymbols o),
    r.type.code.toNat, r.addend⟩

/-- The relocation tables, for the sections that have relocations. -/
def relaParts (o : Object RelocType) (symbolsIndex : Nat) :
    Nat → List (Section RelocType) → List Part
  | _, [] => []
  | index, s :: rest =>
    if s.relocs.isEmpty then relaParts o symbolsIndex (index + 1) rest
    else
      ⟨".rela" ++ s.name, sectionRela, flagInfoLink, symbolsIndex, index + 1, 4, 12,
        s.relocs.flatMap fun r => (relaRecord o r).bytes⟩ ::
        relaParts o symbolsIndex (index + 1) rest

/-- All parts of the file but the last, which names them. -/
def objectParts (o : Object RelocType) : List Part :=
  let relaCount := (o.sections.filter (!·.relocs.isEmpty)).length
  let symbolsIndex := 1 + o.sections.length + relaCount
  let symbols := orderedSymbols o
  let firstGlobal := 1 + o.sections.length + (o.symbols.filter (!·.isGlobal)).length
  o.sections.map sectionPart ++ relaParts o symbolsIndex 0 o.sections ++
    [⟨".symtab", sectionSymbols, 0, symbolsIndex + 1, firstGlobal, 4, 16,
        (symbolRecords o).flatMap SymbolRecord.bytes⟩,
      ⟨".strtab", sectionStrings, 0, 0, 0, 1, 0, stringTable (symbols.map (·.name))⟩]

def namesPart (parts : List Part) : Part :=
  ⟨".shstrtab", sectionStrings, 0, 0, 0, 1, 0, stringTable (parts.map (·.name) ++ [".shstrtab"])⟩

def nullHeader : SectionHeader := ⟨0, 0, 0, 0, 0, 0, 0, 0, 0, 0⟩

/-- The file of an object. -/
def writeObject (o : Object RelocType) : Bytes :=
  let parts := objectParts o ++ [namesPart (objectParts o)]
  let body := pad4 (partBytes 0 parts)
  let headers := nullHeader :: partHeaders 0 1 parts
  let header : FileHeader :=
    ⟨typeRelocatable, machine, 0, 0, fileHeaderSize + body.length, 0, 0, sectionHeaderSize,
      headers.length, headers.length - 1⟩
  header.bytes ++ body ++ headers.flatMap SectionHeader.bytes

end Dlx.Elf
