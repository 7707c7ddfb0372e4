import Dlx.Link.Image
import Dlx.Link.Plan

/-!
# Linking

A linker collects objects and symbols with fixed addresses. Linking places the sections, gives every
symbol its address, plans and applies the relocations, and finds the entry point.

Sections with code come first, in the order of the objects and of their sections, then sections with
data; each starts at a multiple of four. A local symbol is known in its own object only, where it
comes before a global one of the same name.
-/
namespace Dlx

structure LinkSettings where
  /-- Address of the first byte of the image. -/
  base : UInt32
  /-- The entry symbol; without one the entry is `main` if defined, else the base. -/
  entry : Option String
  deriving DecidableEq

structure Linker where
  objects : List (Object UInt32)
  absolutes : NameMap UInt32

namespace Linker

def empty : Linker := ⟨[], .empty⟩

def addObject (l : Linker) (o : Object UInt32) : Linker := { l with objects := l.objects ++ [o] }

/-- Adds an object file. -/
def addFile (l : Linker) (bs : Bytes) : Except LinkError Linker :=
  match Elf.readObject bs with
  | .ok o => .ok (l.addObject o)
  | .error e => .error (.object e)

/-- Gives a symbol a fixed address. The address holds even if the symbol had one, which is then
reported. -/
def define (l : Linker) (name : String) (address : UInt32) : Linker × Option LinkError :=
  ({ l with absolutes := l.absolutes.insert name address },
    if l.absolutes.contains name then some (.duplicateSymbol name) else none)

/-- Gives symbols fixed addresses up to the first that has one already. -/
def defineAll (l : Linker) : List (String × UInt32) → Linker × Option LinkError
  | [] => (l, none)
  | (name, address) :: rest =>
    match l.define name address with
    | (l, none) => l.defineAll rest
    | (l, some e) => (l, some e)

/-! ## Layout -/

/-- A section of an object, with both indices. -/
structure SectionAt where
  object : Nat
  index : Nat
  body : Section UInt32

/-- A section and its offset in the image. -/
structure Placed where
  sect : SectionAt
  offset : Nat

def sectionsOf (object : Nat) (o : Object UInt32) : List SectionAt :=
  o.sections.zipIdx.map fun (s, i) => ⟨object, i, s⟩

def allSections (objects : List (Object UInt32)) : List SectionAt :=
  objects.zipIdx.flatMap fun (o, i) => sectionsOf i o

/-- Places sections one after the other from `offset` on, each at a multiple of four. -/
def placeFrom (offset : Nat) : List SectionAt → List Placed
  | [] => []
  | s :: rest =>
    let start := offset + padding4 offset
    ⟨s, start⟩ :: placeFrom (start + s.body.data.length) rest

/-- The end of the last of some sections that are placed from `offset` on. -/
def endFrom (offset : Nat) : List Placed → Nat
  | [] => offset
  | p :: rest => endFrom (p.offset + p.sect.body.data.length) rest

/-- The bytes of placed sections, with zeros in the gaps. -/
def bytesFrom (offset : Nat) : List Placed → Bytes
  | [] => []
  | p :: rest =>
    List.replicate (p.offset - offset) 0 ++ p.sect.body.data ++
      bytesFrom (p.offset + p.sect.body.data.length) rest

structure ImageLayout where
  text : List Placed
  data : List Placed

def ImageLayout.all (l : ImageLayout) : List Placed := l.text ++ l.data

def ImageLayout.textSize (l : ImageLayout) : Nat := endFrom 0 l.text

def ImageLayout.bytes (l : ImageLayout) : Bytes := bytesFrom 0 l.all

def layout (objects : List (Object UInt32)) : ImageLayout :=
  let sections := allSections objects
  let text := placeFrom 0 (sections.filter (·.body.kind = .text))
  ⟨text, placeFrom (endFrom 0 text) (sections.filter (·.body.kind = .data))⟩

/-- The placement of a section of an object. -/
def ImageLayout.placement? (l : ImageLayout) (base : UInt32) (object index : Nat) :
    Option Placement :=
  (l.all.find? fun p => p.sect.object = object && p.sect.index = index).map fun p =>
    ⟨base + UInt32.ofNat p.offset, p.offset, p.sect.body.data.length⟩

/-! ## Symbols -/

/-- The tables of addresses: of global symbols, and of the local ones of each object. -/
structure Addresses where
  globals : NameMap UInt32
  locals : List (NameMap UInt32)

/-- Enters a symbol of an object; one that is not defined is left out. -/
def enterSymbol (place : Nat → Option Placement) (globals locals : NameMap UInt32) (s : Symbol) :
    Except LinkError (NameMap UInt32 × NameMap UInt32) :=
  match s.home with
  | none => .ok (globals, locals)
  | some index =>
    match place index with
    | none => .error (.noSuchSection s.name index)
    | some p =>
      let address := p.address + s.value
      if !s.isGlobal then .ok (globals, locals.insert s.name address)
      else if globals.contains s.name then .error (.duplicateSymbol s.name)
      else .ok (globals.insert s.name address, locals)

def enterSymbols (place : Nat → Option Placement) :
    List Symbol → NameMap UInt32 → NameMap UInt32 →
      Except LinkError (NameMap UInt32 × NameMap UInt32)
  | [], globals, locals => .ok (globals, locals)
  | s :: rest, globals, locals => do
    let (globals, locals) ← enterSymbol place globals locals s
    enterSymbols place rest globals locals

/-- Enters the symbols of the objects from the one with this index on. -/
def collect (place : Nat → Nat → Option Placement) (object : Nat) :
    List (Object UInt32) → NameMap UInt32 → Except LinkError Addresses
  | [], globals => .ok ⟨globals, []⟩
  | o :: rest, globals => do
    let (globals, locals) ← enterSymbols (place object) o.symbols globals .empty
    let more ← collect place (object + 1) rest globals
    return { more with locals := locals :: more.locals }

def Addresses.lookup (a : Addresses) (locals : NameMap UInt32) (name : String) : Option UInt32 :=
  match locals.find? name with
  | some address => some address
  | none => a.globals.find? name

/-! ## Relocations -/

/-- Plans the sections of an object from the one with this index on. -/
def planSections (place : Nat → Option Placement) (lookup : String → Option UInt32) (index : Nat) :
    List (Section UInt32) → Except LinkError (List Patch)
  | [] => .ok []
  | s :: rest => do
    let patches ← match place index with
      | some p => plan p lookup s.relocs
      | none => pure []
    return patches ++ (← planSections place lookup (index + 1) rest)

/-- Plans the objects from the one with this index on, each with its local symbols. -/
def planObjects (place : Nat → Nat → Option Placement) (a : Addresses) (object : Nat) :
    List (Object UInt32 × NameMap UInt32) → Except LinkError (List Patch)
  | [] => .ok []
  | (o, locals) :: rest => do
    let patches ← planSections (place object) (a.lookup locals) 0 o.sections
    return patches ++ (← planObjects place a (object + 1) rest)

/-- The address at which the image is entered. -/
def entryAddress (globals : NameMap UInt32) (options : LinkSettings) : Except LinkError UInt32 :=
  match options.entry with
  | some name =>
    match globals.find? name with
    | some address => .ok address
    | none => .error (.undefinedSymbol name)
  | none => .ok ((globals.find? "main").getD options.base)

/-- Links everything that was added. -/
def link (l : Linker) (options : LinkSettings) : Except LinkError Image := do
  let layout := layout l.objects
  let place := layout.placement? options.base
  let addresses ← collect place 0 l.objects l.absolutes
  let patches ← planObjects place addresses 0 (l.objects.zip addresses.locals)
  let bytes ← applyPatches layout.bytes patches
  let entry ← entryAddress addresses.globals options
  return ⟨options.base, entry, UInt32.ofNat layout.textSize, bytes, addresses.globals⟩

end Linker

end Dlx
