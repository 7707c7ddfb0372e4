import Dlx.Bytes
import Dlx.Half
import Dlx.Opcode.Layout
import Dlx.Text.Numeral

/-!
# Relocations

A relocation says which field of the bytes at a place receives a value and how. Assembler and linker
patch through the same table, `RelocType.rule`, so a field resolved early and one resolved late hold
the same bits.
-/
namespace Dlx

inductive RelocType where
  | none
  | abs32
  | abs64
  | lo16
  | hi16
  /-- Branch distance. -/
  | pc16
  /-- Call distance. -/
  | pc26
  /-- Jump address. -/
  | abs26
  deriving DecidableEq

namespace RelocType

def code : RelocType → UInt32
  | none => 0
  | abs32 => 1
  | abs64 => 2
  | lo16 => 3
  | hi16 => 4
  | pc16 => 5
  | pc26 => 6
  | abs26 => 7

def ofCode? (code : UInt32) : Option RelocType :=
  match code.toNat with
  | 0 => some none
  | 1 => some abs32
  | 2 => some abs64
  | 3 => some lo16
  | 4 => some hi16
  | 5 => some pc16
  | 6 => some pc26
  | 7 => some abs26
  | _ => Option.none

def name : RelocType → String
  | none => "R_DLX_NONE"
  | abs32 => "R_DLX_32"
  | abs64 => "R_DLX_64"
  | lo16 => "R_DLX_LO16"
  | hi16 => "R_DLX_HI16"
  | pc16 => "R_DLX_PC16"
  | pc26 => "R_DLX_PC26_S2"
  | abs26 => "R_DLX_26"

theorem ofCode?_code (ty : RelocType) : ofCode? ty.code = some ty := by
  cases ty <;> rfl

end RelocType

/-- What of a value a field holds. -/
inductive FieldPart where
  | whole
  | low
  | high
  /-- The number of words, rounded down. -/
  | words
  deriving DecidableEq

/-- The part of a value. -/
def FieldPart.select (p : FieldPart) (value : UInt64) : UInt64 :=
  match p with
  | .whole => value
  | .low => (lowHalf value.toUInt32).toUInt64
  | .high => (highHalf value.toUInt32).toUInt64
  | .words => (value.toInt64 >>> 2).toUInt64

/-- How the part is read when it must fit the field. -/
inductive FieldRange where
  /-- It is cut to the field. -/
  | any
  | signed
  | unsigned
  deriving DecidableEq

def FieldRange.accepts (r : FieldRange) (bits : Nat) (value : UInt64) : Bool :=
  match r with
  | .any => true
  | .signed =>
    -(capacity (bits - 1) : Int) ≤ value.toInt64.toInt && value.toInt64.toInt < capacity (bits - 1)
  | .unsigned => value.toNat < capacity bits

/-- Place and meaning of the field that a relocation fills. -/
structure FieldRule where
  type : RelocType
  /-- How many bytes are read and written. -/
  size : Nat
  bitOffset : Nat
  bitWidth : Nat
  pcRelative : Bool
  part : FieldPart
  range : FieldRange
  deriving DecidableEq

/-- A field in an instruction word. -/
def FieldRule.inWord (type : RelocType) (bitWidth : Nat) (pcRelative : Bool) (part : FieldPart)
    (range : FieldRange) : FieldRule :=
  ⟨type, 4, 0, bitWidth, pcRelative, part, range⟩

def RelocType.rule : RelocType → FieldRule
  | .none => ⟨.none, 0, 0, 0, false, .whole, .any⟩
  | .abs32 => .inWord .abs32 32 false .whole .any
  | .abs64 => ⟨.abs64, 8, 0, 64, false, .whole, .any⟩
  | .lo16 => .inWord .lo16 16 false .low .any
  | .hi16 => .inWord .hi16 16 false .high .any
  | .pc16 => .inWord .pc16 16 true .words .signed
  | .pc26 => .inWord .pc26 26 true .words .signed
  | .abs26 => .inWord .abs26 26 false .words .unsigned

/-- Why a field is not filled. -/
inductive PatchError where
  /-- The value does not fit the field. -/
  | outOfRange (type : RelocType) (value : Int64)
  /-- The field reaches past the end of `len` bytes. -/
  | outOfBounds (type : RelocType) (offset len : Nat)
  | noField (type : RelocType)
  /-- The rule's size is not the one that fields of its type have. -/
  | badSize (type : RelocType) (size : Nat)
  deriving DecidableEq

def PatchError.message : PatchError → String
  | .outOfRange type value =>
    "relocation " ++ type.name ++ " out of range: " ++ Text.signed value.toInt
  | .outOfBounds type offset len =>
    "relocation " ++ type.name ++ " at offset 0x" ++ Text.hex 0 offset ++
      " is outside the section (size " ++ Text.decimal len ++ ")"
  | .noField type => "relocation " ++ type.name ++ " has no field"
  | .badSize type size => "relocation " ++ type.name ++ " cannot have size " ++ Text.decimal size

namespace FieldRule

/-- The bits that a value puts into the field. -/
def fieldValue (rule : FieldRule) (value : UInt64) : Except PatchError UInt64 :=
  let field := rule.part.select value
  if rule.range.accepts rule.bitWidth field then
    .ok (UInt64.ofNat (field.toNat % capacity rule.bitWidth))
  else .error (.outOfRange rule.type value.toInt64)

/-- A word with the field replaced. -/
def mergeWord (rule : FieldRule) (word field : UInt32) : UInt32 :=
  let shift := UInt32.ofNat rule.bitOffset
  let mask := lowMask rule.bitWidth <<< shift
  (word &&& ~~~mask) ||| ((field <<< shift) &&& mask)

/-- The bytes that take the place of `old`. Data is overwritten; in an instruction word the bits
around the field stay. -/
def fieldBytes (rule : FieldRule) (old : Bytes) (field : UInt64) : Bytes :=
  match rule.type with
  | .abs64 => leBytes 8 field.toNat
  | .abs32 => leBytes 4 field.toNat
  | _ => wordBytes (rule.mergeWord (bytesWord old) field.toUInt32)

/-- Fills the field at `offset` of `data` with `value`. -/
def patch (rule : FieldRule) (data : Bytes) (offset : Nat) (value : UInt64) :
    Except PatchError Bytes :=
  if rule.size = 0 then .error (.noField rule.type)
  else
    match slice? data offset rule.size with
    | none => .error (.outOfBounds rule.type offset data.length)
    | some old => do
      let field ← rule.fieldValue value
      let new := rule.fieldBytes old field
      if new.length = rule.size then return splice data offset new
      else throw (.badSize rule.type rule.size)

end FieldRule

end Dlx
