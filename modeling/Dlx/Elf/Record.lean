import Dlx.Bytes
import Dlx.Text.Utf8

/-!
# ELF records

An ELF file is made of records whose fields are numbers of fixed widths. A record is written as the
list of its fields; it is read by a list of widths, field by field, so that the first field outside
the file is the one reported.

Results:
* `readValues_recordBytes`: a record is read back, whatever follows it.
-/
namespace Dlx.Elf

/-- The two classes of files: 32-bit and 64-bit. -/
inductive Class where
  | elf32
  | elf64
  deriving DecidableEq

/-- Why a file cannot be read. -/
inductive Fault where
  | badMagic (found : Bytes)
  | badVersion (found : Nat)
  | badClass (found : Nat)
  /-- The file is not little-endian. -/
  | badEndianness (found : Nat)
  /-- The bytes from `start` to `stop` are not all there. -/
  | outside (start stop : Nat)
  /-- An offset does not fit 64 bits. -/
  | overflow
  | badEntrySize (expected found : Nat)
  | badOffset (offset : Nat)
  | unterminated (offset : Nat)
  | badText (fault : Text.Utf8Fault)
  | noSectionHeaders
  | badSymbolIndex (index : Nat)
  deriving DecidableEq

def Fault.message : Fault → String
  | .badMagic found =>
    "Invalid Magic Bytes: [" ++ String.intercalate ", " (found.map (Text.upperHex ·.toNat)) ++ "]"
  | .badVersion found =>
    "Unsupported ELF Version field found: " ++ Text.decimal found ++ " expected: 1"
  | .badClass found => "Unsupported ELF Class: " ++ Text.decimal found
  | .badEndianness found => "Unsupported ELF Endianness: " ++ Text.decimal found
  | .outside start stop =>
    "Could not read bytes in range [0x" ++ Text.upperHex start ++ ", 0x" ++ Text.upperHex stop ++
      ")"
  | .overflow => "Integer overflow detected"
  | .badEntrySize expected found =>
    "Invalid entsize. Expected: 0x" ++ Text.upperHex expected ++ ", Found: 0x" ++
      Text.upperHex found
  | .badOffset offset => "Bad offset: 0x" ++ Text.upperHex offset
  | .unterminated offset =>
    "Could not find terminating NUL byte starting at offset: 0x" ++ Text.upperHex offset
  | .badText fault => fault.message
  | .noSectionHeaders => "missing section headers"
  | .badSymbolIndex index => "bad symbol index " ++ Text.decimal index

/-! ## Fields -/

/-- The bytes of a record whose fields are given as width and value. -/
def recordBytes (fields : List (Nat × Nat)) : Bytes := fields.flatMap fun (w, v) => leBytes w v

/-- The values at the front of a byte string, by their widths. -/
def readValues : List Nat → Bytes → List Nat
  | [], _ => []
  | w :: ws, bs => leNat (bs.take w) :: readValues ws (bs.drop w)

/-- The bytes from `start` to `stop`. -/
def range (bs : Bytes) (start stop : Nat) : Except Fault Bytes :=
  if capacity 64 ≤ stop then .error .overflow
  else if stop ≤ bs.length then .ok ((bs.drop start).take (stop - start))
  else .error (.outside start stop)

/-- Reads the fields of a record at an offset. -/
def readFields (bs : Bytes) (offset : Nat) : List Nat → Except Fault (List Nat)
  | [] => .ok []
  | w :: ws => do
    let field ← range bs offset (offset + w)
    return leNat field :: (← readFields bs (offset + w) ws)

/-- The size of a record with fields of these widths. -/
def recordSize : List Nat → Nat
  | [] => 0
  | w :: ws => w + recordSize ws

/-- The first `count` records of a table. -/
def takeRecords (widths : List Nat) : Nat → Bytes → List (List Nat)
  | 0, _ => []
  | count + 1, table =>
    readValues widths table :: takeRecords widths count (table.drop (recordSize widths))

/-- The whole records of a table. -/
def records (widths : List Nat) (table : Bytes) : List (List Nat) :=
  takeRecords widths (table.length / recordSize widths) table

/-- The record with an index in a table. An index far outside is reported as such; one just outside
by the field that is missing. -/
def recordAt (widths : List Nat) (table : Bytes) (index : Nat) : Except Fault (List Nat) :=
  if table.isEmpty then .error (.badOffset index)
  else
    let start := index * recordSize widths
    if capacity 64 ≤ start then .error .overflow
    else if table.length < start then .error (.badOffset index)
    else readFields table start widths

theorem readValues_recordBytes (fields : List (Nat × Nat)) (rest : Bytes)
    (h : ∀ f ∈ fields, f.2 < capacity (8 * f.1)) :
    readValues (fields.map (·.1)) (recordBytes fields ++ rest) = fields.map (·.2) := by
  induction fields with
  | nil => rfl
  | cons f fs ih =>
    have hf := h f List.mem_cons_self
    have hl := length_leBytes f.1 f.2
    have ih := ih fun g hg => h g (List.mem_cons_of_mem _ hg)
    simp only [recordBytes, List.flatMap_cons, List.map_cons, readValues, List.append_assoc]
    rw [List.take_left' hl, List.drop_left' hl, leNat_leBytes, Nat.mod_eq_of_lt hf]
    exact congrArg _ ih

/-! ## String tables -/

/-- Names with a zero byte after each; offset zero is the empty name. -/
def stringTable (names : List String) : Bytes :=
  0 :: names.flatMap fun n => Text.encodeUtf8 n ++ [0]

/-- Where each name stands, from `offset` on. -/
def nameOffsets (offset : Nat) : List String → List Nat
  | [] => []
  | n :: rest => offset :: nameOffsets (offset + (Text.encodeUtf8 n).length + 1) rest

/-- The name at an offset of a string table. -/
def nameAt (table : Bytes) (offset : Nat) : Except Fault String :=
  if table.isEmpty || table.length < offset then .error (.badOffset offset)
  else
    let rest := table.drop offset
    if rest.contains 0 then (Text.decodeUtf8 (rest.takeWhile (· ≠ 0))).mapError .badText
    else .error (.unterminated offset)

/-! ## The records of a file -/

/-- The machine that a file is for. -/
def machine : Nat := 0x5aa5

structure FileHeader where
  type : Nat
  machine : Nat
  entry : Nat
  programOffset : Nat
  sectionOffset : Nat
  programEntrySize : Nat
  programCount : Nat
  sectionEntrySize : Nat
  sectionCount : Nat
  /-- Index of the section that names the sections. -/
  namesIndex : Nat
  deriving DecidableEq

structure SectionHeader where
  /-- Offset of the name in the table of section names. -/
  name : Nat
  type : Nat
  flags : Nat
  address : Nat
  offset : Nat
  size : Nat
  link : Nat
  info : Nat
  align : Nat
  entrySize : Nat
  deriving DecidableEq

structure SymbolRecord where
  name : Nat
  value : Nat
  /-- The binding in the high half and the type in the low half. -/
  info : Nat
  sectionIndex : Nat
  deriving DecidableEq

structure RelaRecord where
  offset : Nat
  symbol : Nat
  type : Nat
  addend : Int64
  deriving DecidableEq

/-- The bytes in front of every header that is written: magic number, 32-bit, little-endian. -/
def ident : Bytes := [0x7f, 0x45, 0x4c, 0x46, 1, 1, 1, 0, 0, 0, 0, 0, 0, 0, 0, 0]

def fileHeaderSize : Nat := 52

def sectionHeaderSize : Nat := 40

/-- A file header of the 32-bit class. -/
def FileHeader.bytes (h : FileHeader) : Bytes :=
  ident ++ recordBytes
    [(2, h.type), (2, h.machine), (4, 1), (4, h.entry), (4, h.programOffset), (4, h.sectionOffset),
     (4, 0), (2, fileHeaderSize), (2, h.programEntrySize), (2, h.programCount),
     (2, h.sectionEntrySize), (2, h.sectionCount), (2, h.namesIndex)]

/-- A section header of the 32-bit class. -/
def SectionHeader.bytes (h : SectionHeader) : Bytes :=
  recordBytes
    [(4, h.name), (4, h.type), (4, h.flags), (4, h.address), (4, h.offset), (4, h.size),
     (4, h.link), (4, h.info), (4, h.align), (4, h.entrySize)]

/-- A symbol of the 32-bit class. -/
def SymbolRecord.bytes (s : SymbolRecord) : Bytes :=
  recordBytes [(4, s.name), (4, s.value), (4, 0), (1, s.info), (1, 0), (2, s.sectionIndex)]

/-- A relocation of the 32-bit class, whose symbol index has 24 bits and whose type has 8. -/
def RelaRecord.bytes (r : RelaRecord) : Bytes :=
  recordBytes [(4, r.offset), (4, r.symbol * 256 + r.type), (4, r.addend.toUInt64.toNat)]

/-! Field widths by class, and the records that the fields make. -/

/-- The fields of the file header that follow the identification. -/
def FileHeader.widths : Class → List Nat
  | .elf32 => [2, 2, 4, 4, 4, 4, 4, 2, 2, 2, 2, 2, 2]
  | .elf64 => [2, 2, 4, 8, 8, 8, 4, 2, 2, 2, 2, 2, 2]

def FileHeader.ofFields (v : List Nat) : FileHeader :=
  let f := fun i => v.getD i 0
  ⟨f 0, f 1, f 3, f 4, f 5, f 8, f 9, f 10, f 11, f 12⟩

def SectionHeader.widths : Class → List Nat
  | .elf32 => [4, 4, 4, 4, 4, 4, 4, 4, 4, 4]
  | .elf64 => [4, 4, 8, 8, 8, 8, 4, 4, 8, 8]

def SectionHeader.ofFields (v : List Nat) : SectionHeader :=
  let f := fun i => v.getD i 0
  ⟨f 0, f 1, f 2, f 3, f 4, f 5, f 6, f 7, f 8, f 9⟩

def programHeaderSize : Class → Nat
  | .elf32 => 32
  | .elf64 => 56

def SymbolRecord.widths : Class → List Nat
  | .elf32 => [4, 4, 4, 1, 1, 2]
  | .elf64 => [4, 1, 1, 2, 8, 8]

def SymbolRecord.ofFields (cls : Class) (v : List Nat) : SymbolRecord :=
  let f := fun i => v.getD i 0
  match cls with
  | .elf32 => ⟨f 0, f 1, f 3, f 5⟩
  | .elf64 => ⟨f 0, f 4, f 1, f 3⟩

def RelaRecord.widths : Class → List Nat
  | .elf32 => [4, 4, 4]
  | .elf64 => [8, 8, 8]

def RelaRecord.ofFields (cls : Class) (v : List Nat) : RelaRecord :=
  let f := fun i => v.getD i 0
  match cls with
  | .elf32 => ⟨f 0, f 1 / capacity 8, f 1 % capacity 8, Int64.ofInt (Int.bmod (f 2) (capacity 32))⟩
  | .elf64 =>
    ⟨f 0, f 1 / capacity 32, f 1 % capacity 32, Int64.ofInt (Int.bmod (f 2) (capacity 64))⟩

/-- The fields in front of compressed data. -/
def compressionWidths : Class → List Nat
  | .elf32 => [4, 4, 4]
  | .elf64 => [4, 4, 8, 8]

/-! ## Numbers with a meaning -/

def typeRelocatable : Nat := 1
def typeExecutable : Nat := 2

def sectionProgram : Nat := 1
def sectionSymbols : Nat := 2
def sectionStrings : Nat := 3
def sectionRela : Nat := 4
def sectionNoBits : Nat := 8
def sectionRel : Nat := 9

def flagWrite : Nat := 1
def flagAlloc : Nat := 2
def flagExec : Nat := 4
def flagInfoLink : Nat := 0x40
def flagCompressed : Nat := 0x800

/-- Whether a flag, a power of two, is set. -/
def hasFlag (flags flag : Nat) : Bool := flags / flag % 2 = 1

end Dlx.Elf
