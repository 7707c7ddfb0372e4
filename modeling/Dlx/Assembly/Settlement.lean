import Dlx.Encoding
import Dlx.NameMap
import Dlx.Source.Statement

/-!
# Settling fixups

When a unit is complete, each fixup is either given a value, which is patched in place, or left to
the linker. A constant and a difference of two symbols of the section have a value; so has a
distance to a symbol of the section, unless every reference is to reach the linker.
-/
namespace Dlx

inductive AsmError where
  | source (e : Source.SourceError)
  | encode (e : EncodeError)
  /-- The expression of a fixup is no reference. -/
  | unclassifiable (e : Expr)
  /-- The kind of fixup has no field rule. -/
  | unknownFixupKind (kind : FixupKind)
  | unsupportedData (size : Nat)
  | dataOutOfRange (size : Nat) (value : Int64)
  /-- The two symbols are not both defined in the section. -/
  | symbolDifference (symbol subtrahend : String)
  | duplicateSymbol (name : String)
  | patch (e : PatchError)
  deriving DecidableEq

def AsmError.message : AsmError → String
  | .source e => e.message
  | .encode e => e.message
  | .unclassifiable e => "cannot classify symbol reference: " ++ e.text
  | .unknownFixupKind kind => "unknown fixup kind: " ++ kind.name
  | .unsupportedData size => Text.decimal size ++ "-byte data relocations not supported"
  | .dataOutOfRange size value =>
    "value " ++ Text.signed value.toInt ++ " does not fit in " ++ Text.decimal size ++ " bytes"
  | .symbolDifference symbol subtrahend =>
    "cannot represent " ++ symbol ++ "-" ++ subtrahend ++
      ": symbols must be defined in the same section"
  | .duplicateSymbol name => "symbol '" ++ name ++ "' is already defined"
  | .patch e => e.message

/-- What the assembler knows of a symbol. -/
structure KnownSymbol where
  /-- The section of its label, once there is one. -/
  home : Option Nat
  offset : UInt32
  isGlobal : Bool
  deriving DecidableEq

abbrev SymbolTable := NameMap KnownSymbol

/-- What becomes of a fixup. -/
inductive Settlement where
  /-- It has a value, for a distance already counted from the place. -/
  | settled (value : UInt64)
  /-- It is left to the linker. -/
  | deferred (symbol : String) (addend : Int64)
  deriving DecidableEq

/-- The offset of a symbol, if it is defined in the section with index `home`. -/
def SymbolTable.offsetIn? (symbols : SymbolTable) (home : Nat) (name : String) : Option UInt32 :=
  (symbols.find? name).bind fun d => if d.home = some home then some d.offset else none

def offsetInt (offset : UInt32) : Int64 := Int64.ofNat offset.toNat

/-- Settles a fixup of the section with index `home`. -/
def settle (localPc : Bool) (symbols : SymbolTable) (home : Nat) (f : Fixup) :
    Except AsmError Settlement :=
  match f.value.refers? with
  | none => .error (.unclassifiable f.value)
  | some ⟨_, none, _, addend⟩ => .ok (.settled addend.toUInt64)
  | some ⟨_, some symbol, some subtrahend, addend⟩ =>
    match symbols.offsetIn? home symbol, symbols.offsetIn? home subtrahend with
    | some a, some b => .ok (.settled (offsetInt a - offsetInt b + addend).toUInt64)
    | _, _ => .error (.symbolDifference symbol subtrahend)
  | some ⟨_, some symbol, none, addend⟩ =>
    match symbols.offsetIn? home symbol with
    | some target =>
      if f.kind.isPcRelative && localPc then
        .ok (.settled (offsetInt target + addend - offsetInt f.offset).toUInt64)
      else .ok (.deferred symbol addend)
    | none => .ok (.deferred symbol addend)

/-- The bits that a settled value puts into the field of a fixup. -/
def FixupKind.fieldValue (kind : FixupKind) (value : UInt64) : Except AsmError UInt64 :=
  match kind.relocType? with
  | some ty => (ty.rule.fieldValue value).mapError .patch
  | none => .error (.unknownFixupKind kind)

/-- Writes a value of one or two bytes, which may be meant with or without sign. -/
def patchSmallData (size : Nat) (data : Bytes) (offset : Nat) (value : UInt64) :
    Except AsmError Bytes :=
  let v := value.toInt64.toInt
  if v < -(capacity (8 * size - 1) : Int) ∨ (capacity (8 * size) : Int) ≤ v then
    .error (.dataOutOfRange size value.toInt64)
  else if offset + size ≤ data.length then .ok (splice data offset (leBytes size value.toNat))
  else .error (.patch (.outOfBounds .none offset data.length))

/-- Writes a settled value into the section. -/
def Fixup.patch (f : Fixup) (value : UInt64) (data : Bytes) : Except AsmError Bytes :=
  match f.kind.relocType?, f.kind with
  | some ty, _ => (ty.rule.patch data f.offset.toNat value).mapError .patch
  | none, .data1 => patchSmallData 1 data f.offset.toNat value
  | none, .data2 => patchSmallData 2 data f.offset.toNat value
  | none, kind => .error (.unknownFixupKind kind)

/-- The relocation that leaves a fixup to the linker. -/
def FixupKind.toReloc (kind : FixupKind) : Except AsmError RelocType :=
  match kind with
  | .data1 => .error (.unsupportedData 1)
  | .data2 => .error (.unsupportedData 2)
  | _ =>
    match kind.relocType? with
    | some ty => .ok ty
    | none => .error (.unknownFixupKind kind)

end Dlx
