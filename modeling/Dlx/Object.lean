import Dlx.Bytes
import Dlx.Relocation

/-!
# Objects

An object holds sections, their relocations and symbols. The parameter `κ` is how a relocation names
its type: an assembled object has a `RelocType`, an object file only a code, which may be unknown
until it is linked.
-/
namespace Dlx

inductive SectionKind where
  | text
  | data
  deriving DecidableEq

structure Reloc (κ : Type) where
  /-- Offset of the field in its section. -/
  offset : UInt32
  symbol : String
  type : κ
  addend : Int64
  deriving DecidableEq

structure Section (κ : Type) where
  name : String
  kind : SectionKind
  data : Bytes
  relocs : List (Reloc κ)
  deriving DecidableEq

structure Symbol where
  name : String
  /-- Index of the section that defines the symbol. -/
  home : Option Nat
  value : UInt32
  isGlobal : Bool
  deriving DecidableEq

structure Object (κ : Type) where
  sections : List (Section κ)
  symbols : List Symbol
  deriving DecidableEq

namespace Object

variable {κ : Type}

def section? (o : Object κ) (name : String) : Option (Section κ) :=
  o.sections.find? (·.name = name)

def symbol? (o : Object κ) (name : String) : Option Symbol := o.symbols.find? (·.name = name)

end Object

def Reloc.withCode (r : Reloc RelocType) : Reloc UInt32 :=
  ⟨r.offset, r.symbol, r.type.code, r.addend⟩

def Section.withCodes (s : Section RelocType) : Section UInt32 :=
  ⟨s.name, s.kind, s.data, s.relocs.map Reloc.withCode⟩

/-- An assembled object as the linker takes it. -/
def Object.withCodes (o : Object RelocType) : Object UInt32 :=
  ⟨o.sections.map Section.withCodes, o.symbols⟩

end Dlx
