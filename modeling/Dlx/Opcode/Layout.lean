import Dlx.Bits
import Dlx.Opcode

/-!
# Instruction layouts

An instruction word holds a six-bit primary opcode in its top bits and, in format R, an eleven-bit
function code in its low bits. Each operand has a slot: a field of the word and the way its value is
read. Encoding and decoding both follow the table `Opcode.layout?`.
-/
namespace Dlx

inductive Format where
  /-- No encoding. -/
  | pseudo
  /-- Three registers and a function code. -/
  | r
  /-- Registers and a 16-bit immediate. -/
  | i
  /-- A 26-bit target. -/
  | j
  deriving DecidableEq

/-- How an operand's field is read. -/
inductive OperandClass where
  | reg
  | simm16
  | uimm16
  /-- Signed byte distance, stored in words, in 16 bits. -/
  | branch
  /-- Signed byte distance, stored in words, in 26 bits. -/
  | call
  /-- Byte address, stored in words, in 26 bits. -/
  | jump
  deriving DecidableEq

/-- Whether the field holds a quarter of the value. -/
def OperandClass.inWords : OperandClass → Bool
  | .branch | .call | .jump => true
  | _ => false

/-- Whether the field's top bit is a sign. -/
def OperandClass.isSigned : OperandClass → Bool
  | .simm16 | .branch | .call => true
  | _ => false

/-- The low `width` bits of a word. -/
def lowMask (width : Nat) : UInt32 := UInt32.ofNat (capacity (min width 32) - 1)

structure Slot where
  shift : Nat
  width : Nat
  cls : OperandClass
  deriving DecidableEq

namespace Slot

/-- The bits of the word that the slot covers. -/
def mask (s : Slot) : UInt32 := lowMask s.width <<< UInt32.ofNat s.shift

/-- A field value at its place in the word. -/
def insert (s : Slot) (value : UInt32) : UInt32 :=
  (value &&& lowMask s.width) <<< UInt32.ofNat s.shift

/-- The field of a word. -/
def extract (s : Slot) (word : UInt32) : UInt32 :=
  (word >>> UInt32.ofNat s.shift) &&& lowMask s.width

end Slot

structure Layout where
  format : Format
  /-- The six bits at the top of the word. -/
  primary : Nat
  /-- The eleven bits at the bottom of a word of format R. -/
  func : Nat
  slots : List Slot
  deriving DecidableEq

namespace Layout

/-- The word before any operand is put in. -/
def fixedBits (l : Layout) : UInt32 :=
  UInt32.ofNat (l.primary * capacity 26 + if l.format = .r then l.func % capacity 11 else 0)

def rs1 : Slot := ⟨21, 5, .reg⟩
def rs2 : Slot := ⟨16, 5, .reg⟩
def rd : Slot := ⟨11, 5, .reg⟩
/-- The destination in format I, and the stored register of a store. -/
def rdImm : Slot := ⟨16, 5, .reg⟩
def simm16 : Slot := ⟨0, 16, .simm16⟩
def uimm16 : Slot := ⟨0, 16, .uimm16⟩

def threeReg (func : Nat) : Layout := ⟨.r, 0, func, [rd, rs1, rs2]⟩
def signedImm (primary : Nat) : Layout := ⟨.i, primary, 0, [rdImm, rs1, simm16]⟩
def unsignedImm (primary : Nat) : Layout := ⟨.i, primary, 0, [rdImm, rs1, uimm16]⟩
def highImm (primary : Nat) : Layout := ⟨.i, primary, 0, [rdImm, uimm16]⟩
def branch (primary : Nat) : Layout := ⟨.i, primary, 0, [rs1, ⟨0, 16, .branch⟩]⟩
def regJump (primary : Nat) : Layout := ⟨.i, primary, 0, [rs1]⟩
def jump (primary : Nat) : Layout := ⟨.j, primary, 0, [⟨0, 26, .jump⟩]⟩
def call (primary : Nat) : Layout := ⟨.j, primary, 0, [⟨0, 26, .call⟩]⟩

end Layout

namespace Opcode

def layout? : Opcode → Option Layout
  | sll => some (.threeReg 0x04)
  | srl => some (.threeReg 0x06)
  | sra => some (.threeReg 0x07)
  | add => some (.threeReg 0x20)
  | addu => some (.threeReg 0x21)
  | sub => some (.threeReg 0x22)
  | subu => some (.threeReg 0x23)
  | .and => some (.threeReg 0x24)
  | .or => some (.threeReg 0x25)
  | .xor => some (.threeReg 0x26)
  | seq => some (.threeReg 0x28)
  | sne => some (.threeReg 0x29)
  | slt => some (.threeReg 0x2a)
  | sgt => some (.threeReg 0x2b)
  | sle => some (.threeReg 0x2c)
  | sge => some (.threeReg 0x2d)
  | j => some (.jump 0x02)
  | jal => some (.call 0x03)
  | beqz => some (.branch 0x04)
  | bnez => some (.branch 0x05)
  | addi => some (.signedImm 0x08)
  | addui => some (.unsignedImm 0x09)
  | subi => some (.signedImm 0x0a)
  | subui => some (.unsignedImm 0x0b)
  | andi => some (.unsignedImm 0x0c)
  | ori => some (.unsignedImm 0x0d)
  | xori => some (.unsignedImm 0x0e)
  | lhi => some (.highImm 0x0f)
  | jr => some (.regJump 0x12)
  | jalr => some (.regJump 0x13)
  | slli => some (.unsignedImm 0x14)
  | srli => some (.unsignedImm 0x16)
  | srai => some (.unsignedImm 0x17)
  | seqi => some (.signedImm 0x18)
  | snei => some (.signedImm 0x19)
  | slti => some (.signedImm 0x1a)
  | sgti => some (.signedImm 0x1b)
  | slei => some (.signedImm 0x1c)
  | sgei => some (.signedImm 0x1d)
  | lb => some (.signedImm 0x20)
  | lh => some (.signedImm 0x21)
  | lw => some (.signedImm 0x23)
  | lbu => some (.signedImm 0x24)
  | lhu => some (.signedImm 0x25)
  | sb => some (.signedImm 0x28)
  | sh => some (.signedImm 0x29)
  | sw => some (.signedImm 0x2b)
  | adjCallStackDown | adjCallStackUp => none

/-- The text of the error for an opcode that has no layout. -/
def noEncodingMessage (op : Opcode) : String :=
  "unknown instruction: " ++ op.mnemonic ++ " has no encoding"

def format (op : Opcode) : Format := (op.layout?.map (·.format)).getD .pseudo

/-- The operation with a primary opcode and, in format R, a function code. -/
def ofFields? (primary func : Nat) : Option Opcode :=
  encodable.find? fun op => op.layout?.any fun l =>
    l.primary = primary && (l.format ≠ .r || l.func = func)

/-- Exactly the machine's operations have a layout. -/
theorem isSome_layout?_iff (op : Opcode) : op.layout?.isSome ↔ op ∈ encodable := by
  cases op <;> decide

end Opcode

end Dlx
