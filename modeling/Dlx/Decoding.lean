import Dlx.Inst
import Dlx.Opcode.Layout

/-!
# Decoding words

A word's top six bits, and in format R its low eleven, select the opcode; the operands are then read
out of their fields. Distances and addresses come back in bytes.
-/
namespace Dlx

inductive DecodeError where
  /-- No operation of format R has this function code. -/
  | unknownFunction (word : UInt32)
  | unknownOpcode (word : UInt32)
  /-- Fewer bytes than a word has. -/
  | tooShort (available : Nat)
  deriving DecidableEq

/-- The six bits at the top of a word. -/
def primaryBits (word : UInt32) : Nat := word.toNat / capacity 26

/-- The eleven bits at the bottom of a word. -/
def funcBits (word : UInt32) : Nat := word.toNat % capacity 11

def DecodeError.message : DecodeError → String
  | .unknownFunction word =>
    "cannot decode 0x" ++ Text.hex 8 word.toNat ++ ": unknown function code 0x" ++
      Text.hex 3 (funcBits word)
  | .unknownOpcode word =>
    "cannot decode 0x" ++ Text.hex 8 word.toNat ++ ": unknown opcode 0x" ++
      Text.hex 2 (primaryBits word)
  | .tooShort available =>
    "cannot decode 0x00000000: need 4 bytes, only " ++ Text.decimal available ++ " available"

/-- The number that a field stands for. -/
def fieldNumber (slot : Slot) (field : UInt32) : Int :=
  let v : Int :=
    if slot.cls.isSigned then Int.bmod field.toNat (capacity slot.width) else field.toNat
  if slot.cls.inWords then 4 * v else v

def decodeOperand (slot : Slot) (word : UInt32) : Operand :=
  let field := slot.extract word
  if slot.cls = .reg then .reg (.ofBits field.toNat)
  else .imm (Int64.ofInt (fieldNumber slot field))

def decode (word : UInt32) : Except DecodeError Inst :=
  match Opcode.ofFields? (primaryBits word) (funcBits word) with
  | some op =>
    let slots := (op.layout?.map (·.slots)).getD []
    .ok ⟨op, slots.map (decodeOperand · word)⟩
  | none =>
    if primaryBits word = 0 then .error (.unknownFunction word) else .error (.unknownOpcode word)

end Dlx
