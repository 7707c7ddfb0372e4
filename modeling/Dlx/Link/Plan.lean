import Dlx.Elf.Reader
import Dlx.Object

/-!
# Planning relocations

The relocations of a section become patches of the image: symbol looked up, value computed, range
checked. All patches are planned before the first byte is written.
-/
namespace Dlx

inductive LinkError where
  | unknownRelocType (code offset : UInt32)
  | undefinedSymbol (name : String)
  | duplicateSymbol (name : String)
  | patch (e : PatchError)
  | object (e : Elf.ReadError)
  /-- A symbol names a section that its object does not have. -/
  | noSuchSection (symbol : String) (index : Nat)
  deriving DecidableEq

def LinkError.message : LinkError → String
  | .unknownRelocType code offset =>
    "unknown relocation type " ++ Text.decimal code.toNat ++ " at offset 0x" ++
      Text.hex 0 offset.toNat
  | .undefinedSymbol name => "undefined symbol: " ++ name
  | .duplicateSymbol name => "duplicate symbol: " ++ name
  | .patch e => e.message
  | .object e => e.message
  | .noSuchSection symbol index =>
    "symbol " ++ symbol ++ " is in section " ++ Text.decimal index ++ ", which does not exist"

/-- How a relocation's value comes from the symbol `S`, the addend `A` and the place `P`. -/
inductive ValueFormula where
  | none
  /-- `S + A` -/
  | absolute
  /-- `S + A - P` -/
  | relative
  deriving DecidableEq

def RelocType.formula (ty : RelocType) : ValueFormula :=
  if ty = .none then .none else if ty.rule.pcRelative then .relative else .absolute

/-- The type of a relocation found at an offset. -/
def relocTypeAt (code offset : UInt32) : Except LinkError RelocType :=
  match RelocType.ofCode? code with
  | some ty => .ok ty
  | Option.none => .error (.unknownRelocType code offset)

/-- Checks that a value fits the field. -/
def RelocType.ensureFits (ty : RelocType) (value : UInt64) : Except LinkError Unit :=
  match ty.rule.fieldValue value with
  | .ok _ => .ok ()
  | .error e => .error (.patch e)

/-- Where a section lies. -/
structure Placement where
  address : UInt32
  /-- Offset of the section in the image. -/
  offset : Nat
  length : Nat
  deriving DecidableEq

/-- A checked write into the image. -/
structure Patch where
  offset : Nat
  type : RelocType
  value : UInt64
  deriving DecidableEq

def addressInt (a : UInt32) : Int64 := Int64.ofNat a.toNat

/-- The value of a relocation at address `place`, given its symbol's address. -/
def relocValue (ty : RelocType) (symbol place : UInt32) (addend : Int64) : UInt64 :=
  let value := addressInt symbol + addend
  (if ty.formula = .relative then value - addressInt place else value).toUInt64

/-- The patch of a relocation; relocations of type none have none. -/
def planReloc (p : Placement) (lookup : String → Option UInt32) (r : Reloc UInt32) :
    Except LinkError (Option Patch) := do
  let ty ← relocTypeAt r.type r.offset
  if ty.formula = .none then return none
  if p.length < r.offset.toNat + ty.rule.size then
    throw (.patch (.outOfBounds ty r.offset.toNat p.length))
  let some symbol := lookup r.symbol | throw (.undefinedSymbol r.symbol)
  let value := relocValue ty symbol (p.address + r.offset) r.addend
  ty.ensureFits value
  return some ⟨p.offset + r.offset.toNat, ty, value⟩

/-- The patches of a section. -/
def plan (p : Placement) (lookup : String → Option UInt32) :
    List (Reloc UInt32) → Except LinkError (List Patch)
  | [] => .ok []
  | r :: rest => do
    let found ← planReloc p lookup r
    let more ← plan p lookup rest
    return found.toList ++ more

def Patch.apply (p : Patch) (image : Bytes) : Except LinkError Bytes :=
  (p.type.rule.patch image p.offset p.value).mapError .patch

/-- Writes patches in order up to the first that fails: the image as far as it was written, and the
failure. -/
def writePatches (image : Bytes) : List Patch → Bytes × Option LinkError
  | [] => (image, none)
  | p :: rest =>
    match p.apply image with
    | .ok image => writePatches image rest
    | .error e => (image, some e)

/-- Writes all patches. -/
def applyPatches (image : Bytes) (patches : List Patch) : Except LinkError Bytes :=
  match writePatches image patches with
  | (image, none) => .ok image
  | (_, some e) => .error e

/-- Relocates an image that is loaded at `base` as a whole. -/
def relocateImage (image : Bytes) (base : UInt32) (relocs : List (Reloc UInt32))
    (lookup : String → Option UInt32) : Except LinkError Bytes := do
  applyPatches image (← plan ⟨base, 0, image.length⟩ lookup relocs)

end Dlx
