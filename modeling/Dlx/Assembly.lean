import Dlx.Assembly.Settlement
import Dlx.Object

/-!
# Assembling

An assembly collects the bytes and fixups of its sections and the symbols of the unit. A step that
fails leaves it as it was. `Assembly.finish` settles every fixup and gives the object.
-/
namespace Dlx

/-- A section that still grows. -/
structure OpenSection where
  name : String
  kind : SectionKind
  data : Bytes
  fixups : List Fixup
  deriving DecidableEq

/-- Sections whose name starts with `.text` hold code. -/
def OpenSection.named (name : String) : OpenSection :=
  ⟨name, if ".text".toList.isPrefixOf name.toList then .text else .data, [], []⟩

structure Assembly where
  /-- Whether distances within a section are resolved here. -/
  localPc : Bool
  sections : List OpenSection
  /-- Index of the section that grows. -/
  current : Nat
  symbols : SymbolTable

namespace Assembly

/-- Makes the section of a name current, and opens it at its first use. -/
def enter (a : Assembly) (name : String) : Assembly :=
  match a.sections.findIdx? (·.name = name) with
  | some i => { a with current := i }
  | none =>
    { a with sections := a.sections ++ [OpenSection.named name], current := a.sections.length }

/-- An empty unit, which starts in `.text`. -/
def start (localPc : Bool) : Assembly := enter ⟨localPc, [], 0, .empty⟩ ".text"

/-- Offset of the next byte in the current section. -/
def offset (a : Assembly) : UInt32 :=
  UInt32.ofNat ((a.sections[a.current]?.map (·.data.length)).getD 0)

/-- Appends bytes and their fixups to the current section. -/
def append (a : Assembly) (bytes : Bytes) (fixups : List Fixup) : Assembly :=
  { a with sections := a.sections.modify a.current fun s =>
      { s with data := s.data ++ bytes, fixups := s.fixups ++ fixups } }

/-- Defines a symbol at the current offset. -/
def label (a : Assembly) (name : String) : Except AsmError Assembly :=
  let known := (a.symbols.find? name).getD ⟨none, 0, false⟩
  if known.home.isSome then .error (.duplicateSymbol name)
  else
    let defined := ⟨some a.current, a.offset, known.isGlobal⟩
    .ok { a with symbols := a.symbols.insert name defined }

/-- Makes a symbol global, defined or not. -/
def makeGlobal (a : Assembly) (name : String) : Assembly :=
  let known := (a.symbols.find? name).getD ⟨none, 0, true⟩
  { a with symbols := a.symbols.insert name { known with isGlobal := true } }

def inst (a : Assembly) (i : Inst) : Except AsmError Assembly :=
  match i.encode with
  | .error e => .error (.encode e)
  | .ok (word, fixups) =>
    .ok (a.append (wordBytes word) (fixups.map fun f => { f with offset := f.offset + a.offset }))

/-- Appends instructions up to the first that fails: what was assembled, and the failure. -/
def insts (a : Assembly) : List Inst → Assembly × Option AsmError
  | [] => (a, none)
  | i :: rest =>
    match a.inst i with
    | .ok a => a.insts rest
    | .error e => (a, some e)

/-- Appends a data value; one that is no constant leaves zeros and a fixup. -/
def value (a : Assembly) (e : Expr) (size : Nat) : Except AsmError Assembly :=
  match FixupKind.data? size with
  | none => .error (.unsupportedData size)
  | some kind =>
    match e.constant? with
    | some v => .ok (a.append (leBytes size v.toUInt64.toNat) [])
    | none => .ok (a.append (List.replicate size 0) [⟨a.offset, e, kind⟩])

def bytes (a : Assembly) (bs : Bytes) : Assembly := a.append bs []

/-! ## Finishing -/

/-- Patches a fixup into the data of its section or adds a relocation. -/
def finishFixup (a : Assembly) (home : Nat) (data : Bytes) (relocs : List (Reloc RelocType))
    (f : Fixup) : Except AsmError (Bytes × List (Reloc RelocType)) := do
  match ← settle a.localPc a.symbols home f with
  | .settled v => return (← f.patch v data, relocs)
  | .deferred symbol addend =>
    let ty ← f.kind.toReloc
    return (data, relocs ++ [⟨f.offset, symbol, ty, addend⟩])

def finishFixups (a : Assembly) (home : Nat) :
    List Fixup → Bytes → List (Reloc RelocType) →
      Except AsmError (Bytes × List (Reloc RelocType))
  | [], data, relocs => .ok (data, relocs)
  | f :: rest, data, relocs => do
    let (data, relocs) ← a.finishFixup home data relocs f
    a.finishFixups home rest data relocs

def finishSections (a : Assembly) (home : Nat) :
    List OpenSection → Except AsmError (List (Section RelocType))
  | [] => .ok []
  | s :: rest => do
    let (data, relocs) ← a.finishFixups home s.fixups s.data []
    return ⟨s.name, s.kind, data, relocs⟩ :: (← a.finishSections (home + 1) rest)

/-- A symbol of the object; one that is not defined is global. -/
def symbolOf (name : String) (d : KnownSymbol) : Symbol :=
  ⟨name, d.home, d.offset, d.isGlobal || d.home.isNone⟩

/-- The names, in order, that only relocations mention. -/
def unlistedNames (a : Assembly) (sections : List (Section RelocType)) : List String :=
  let names := sections.flatMap fun s => s.relocs.map (·.symbol)
  let unlisted := names.filter fun n => !a.symbols.contains n
  (NameMap.ofList (unlisted.map (·, ()))).entries.map (·.1)

/-- The object of a complete unit. -/
def finish (a : Assembly) : Except AsmError (Object RelocType) := do
  let sections ← a.finishSections 0 a.sections
  let listed := a.symbols.entries.map fun (name, d) => symbolOf name d
  let unlisted := (a.unlistedNames sections).map fun name => ⟨name, none, 0, true⟩
  return ⟨sections, listed ++ unlisted⟩

/-! ## Source text -/

def values (a : Assembly) (size : Nat) : List Expr → Except AsmError Assembly
  | [] => .ok a
  | e :: rest => do (← a.value e size).values size rest

def statement (a : Assembly) : Statement → Except AsmError Assembly
  | .label name => a.label name
  | .enter name => .ok (a.enter name)
  | .makeGlobal name => .ok (a.makeGlobal name)
  | .data size es => a.values size es
  | .inst i => a.inst i

def statements (a : Assembly) : List Statement → Except AsmError Assembly
  | [] => .ok a
  | s :: rest => do (← a.statement s).statements rest

end Assembly

/-- Assembles a source text. It is read as a whole before anything is assembled. -/
def assemble (localPc : Bool) (source : String) : Except AsmError (Object RelocType) := do
  let statements ← (Source.readProgram source).mapError .source
  let a ← (Assembly.start localPc).statements statements
  a.finish

end Dlx
