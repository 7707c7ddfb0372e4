/-!
# Opcodes

The operations of the machine, by mnemonic. Two of them, which mark the ends of a call sequence, are
no machine instructions: they have no layout (`Dlx.Opcode.Layout`) and no mnemonic stands for them
in source text.
-/
namespace Dlx

inductive Opcode where
  | sll | srl | sra | add | addu | sub | subu | and | or | xor
  | seq | sne | slt | sgt | sle | sge
  | j | jal
  | beqz | bnez
  | addi | addui | subi | subui | andi | ori | xori | lhi
  | jr | jalr
  | slli | srli | srai | seqi | snei | slti | sgti | slei | sgei
  | lb | lh | lw | lbu | lhu | sb | sh | sw
  | adjCallStackDown | adjCallStackUp
  deriving DecidableEq

namespace Opcode

/-- The operations that the machine executes. -/
def encodable : List Opcode :=
  [sll, srl, sra, add, addu, sub, subu, .and, .or, .xor, seq, sne, slt, sgt, sle, sge, j, jal, beqz,
   bnez, addi, addui, subi, subui, andi, ori, xori, lhi, jr, jalr, slli, srli, srai, seqi, snei,
   slti, sgti, slei, sgei, lb, lh, lw, lbu, lhu, sb, sh, sw]

def mnemonic : Opcode → String
  | sll => "sll" | srl => "srl" | sra => "sra"
  | add => "add" | addu => "addu" | sub => "sub" | subu => "subu"
  | .and => "and" | .or => "or" | .xor => "xor"
  | seq => "seq" | sne => "sne" | slt => "slt" | sgt => "sgt" | sle => "sle" | sge => "sge"
  | j => "j" | jal => "jal" | beqz => "beqz" | bnez => "bnez"
  | addi => "addi" | addui => "addui" | subi => "subi" | subui => "subui"
  | andi => "andi" | ori => "ori" | xori => "xori" | lhi => "lhi"
  | jr => "jr" | jalr => "jalr"
  | slli => "slli" | srli => "srli" | srai => "srai"
  | seqi => "seqi" | snei => "snei" | slti => "slti" | sgti => "sgti" | slei => "slei"
  | sgei => "sgei"
  | lb => "lb" | lh => "lh" | lw => "lw" | lbu => "lbu" | lhu => "lhu"
  | sb => "sb" | sh => "sh" | sw => "sw"
  | adjCallStackDown => "adjcallstackdown" | adjCallStackUp => "adjcallstackup"

def ofMnemonic? (name : String) : Option Opcode := encodable.find? (·.mnemonic = name)

def isLoad : Opcode → Bool
  | lb | lbu | lh | lhu | lw => true
  | _ => false

def isStore : Opcode → Bool
  | sb | sh | sw => true
  | _ => false

/-- Loads and stores are written with their address as `offset(base)`. -/
def isMemory (op : Opcode) : Bool := op.isLoad || op.isStore

end Opcode

end Dlx
