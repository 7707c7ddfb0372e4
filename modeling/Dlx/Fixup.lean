import Dlx.Expr
import Dlx.Relocation

/-!
# Fixups

A fixup is a field whose value is not known yet: an expression, the kind of field, and its offset.
The kinds that the linker can fill correspond to relocation types; one- and two-byte data do not.
-/
namespace Dlx

inductive FixupKind where
  | lo16
  | hi16
  /-- Call distance in words. -/
  | callPc26
  /-- Branch distance in words. -/
  | branchPc16
  /-- Jump address in words. -/
  | jump26
  | data1
  | data2
  | data4
  | data8
  deriving DecidableEq

namespace FixupKind

def name : FixupKind → String
  | lo16 => "fixup_dlx_lo16"
  | hi16 => "fixup_dlx_hi16"
  | callPc26 => "fixup_dlx_jal_pc26"
  | branchPc16 => "fixup_dlx_br_pc16"
  | jump26 => "fixup_dlx_j26"
  | data1 => "FK_Data_1"
  | data2 => "FK_Data_2"
  | data4 => "FK_Data_4"
  | data8 => "FK_Data_8"

/-- Every field starts at the lowest bit. -/
def bitOffset (_ : FixupKind) : Nat := 0

def bitWidth : FixupKind → Nat
  | lo16 | hi16 | branchPc16 | data2 => 16
  | callPc26 | jump26 => 26
  | data1 => 8
  | data4 => 32
  | data8 => 64

/-- Whether the value is a distance from the place of the fixup. -/
def isPcRelative : FixupKind → Bool
  | callPc26 | branchPc16 => true
  | _ => false

/-- The kind for a data value of `size` bytes. -/
def data? : Nat → Option FixupKind
  | 1 => some data1
  | 2 => some data2
  | 4 => some data4
  | 8 => some data8
  | _ => none

def relocType? : FixupKind → Option RelocType
  | lo16 => some .lo16
  | hi16 => some .hi16
  | callPc26 => some .pc26
  | branchPc16 => some .pc16
  | jump26 => some .abs26
  | data4 => some .abs32
  | data8 => some .abs64
  | data1 | data2 => none

/-- A fixup counts from its place exactly when its relocation does. -/
theorem pcRelative_rule {kind : FixupKind} {ty : RelocType} (h : kind.relocType? = some ty) :
    ty.rule.pcRelative = kind.isPcRelative := by
  cases kind <;> cases h <;> rfl

end FixupKind

structure Fixup where
  /-- Offset of the field: within the instruction when it is encoded, later within its section. -/
  offset : UInt32
  value : Expr
  kind : FixupKind
  deriving DecidableEq

end Dlx
