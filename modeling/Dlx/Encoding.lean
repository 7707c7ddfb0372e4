import Dlx.Fixup
import Dlx.Inst

/-!
# Encoding instructions

`Inst.encode` packs an instruction into a word by the layout of its opcode. Registers and immediates
go into their fields; immediates are cut to the field, since whoever wrote the instruction checked
their range. An expression leaves its field zero and asks for a fixup.
-/
namespace Dlx

inductive EncodeError where
  /-- The opcode has no layout. -/
  | noEncoding (op : Opcode)
  | operandCount (op : Opcode) (expected found : Nat)
  | expectedRegister (op : Opcode) (index : Nat)
  | expectedImmediate (op : Opcode) (index : Nat)
  /-- The expression is no reference that a fixup can carry. -/
  | unclassifiable (e : Expr)
  /-- No fixup fills the operand's field under this marker. -/
  | unhandledFixup (op : Opcode) (m : Marker)
  deriving DecidableEq

def EncodeError.message : EncodeError → String
  | .noEncoding op => op.noEncodingMessage
  | .operandCount op expected found =>
    op.mnemonic ++ " expects " ++ Text.decimal expected ++ " operands, found " ++ Text.decimal found
  | .expectedRegister op index =>
    op.mnemonic ++ " operand " ++ Text.decimal index ++ ": expected a register"
  | .expectedImmediate op index =>
    op.mnemonic ++ " operand " ++ Text.decimal index ++ ": expected an immediate or expression"
  | .unclassifiable e => "cannot classify symbol reference: " ++ e.text
  | .unhandledFixup op m => "Unhandled fixup kind: " ++ m.name ++ " in " ++ op.mnemonic

/-- The fixup for an expression without a marker, which the class of the operand decides. -/
def bareFixupKind? (op : Opcode) : OperandClass → Option FixupKind
  | .call => some .callPc26
  | .jump => some .jump26
  | .branch => some .branchPc16
  | .uimm16 => some (if op = .lhi then .hi16 else .lo16)
  | .simm16 => some .lo16
  | .reg => none

/-- The fixup for an expression; a marker decides for itself, where the operand allows it. -/
def fixupKind? (op : Opcode) (cls : OperandClass) (m : Marker) : Option FixupKind :=
  match m, cls with
  | .none, _ => bareFixupKind? op cls
  | .lo, .simm16 | .lo, .uimm16 => some .lo16
  | .hi, .simm16 | .hi, .uimm16 => some .hi16
  | .call, .call => some .callPc26
  | _, _ => none

def chooseFixup (op : Opcode) (slot : Slot) (e : Expr) : Except EncodeError FixupKind :=
  match fixupKind? op slot.cls e.marker with
  | some kind => .ok kind
  | none => .error (.unhandledFixup op e.marker)

/-- The bits of an immediate, before they are cut to a field. -/
def immediateBits (cls : OperandClass) (v : Int64) : UInt32 :=
  (if cls.inWords then v >>> 2 else v).toUInt64.toUInt32

/-- The field of the operand with the given index, and the fixups it asks for. -/
def encodeOperand (op : Opcode) (index : Nat) (slot : Slot) (operand : Operand) :
    Except EncodeError (UInt32 × List Fixup) :=
  match operand with
  | .reg r =>
    if slot.cls = .reg then .ok (UInt32.ofNat r.num.val, [])
    else .error (.expectedImmediate op index)
  | .imm v =>
    if slot.cls = .reg then .error (.expectedRegister op index)
    else .ok (immediateBits slot.cls v, [])
  | .expr e =>
    if slot.cls = .reg then .error (.expectedRegister op index)
    else if e.refers?.isNone then .error (.unclassifiable e)
    else do return (0, [⟨0, e, ← chooseFixup op slot e⟩])

/-- Puts the operands into `word`, from operand `index` on. -/
def encodeOperands (op : Opcode) (word : UInt32) (index : Nat) :
    List (Slot × Operand) → Except EncodeError (UInt32 × List Fixup)
  | [] => .ok (word, [])
  | (slot, operand) :: rest => do
    let (field, fixups) ← encodeOperand op index slot operand
    let (word, more) ← encodeOperands op (word ||| slot.insert field) (index + 1) rest
    return (word, fixups ++ more)

/-- The word of an instruction, and the fixups of its fields. -/
def Inst.encode (i : Inst) : Except EncodeError (UInt32 × List Fixup) :=
  match i.opcode.layout? with
  | none => .error (.noEncoding i.opcode)
  | some layout =>
    if i.operands.length = layout.slots.length then
      encodeOperands i.opcode layout.fixedBits 0 (layout.slots.zip i.operands)
    else .error (.operandCount i.opcode layout.slots.length i.operands.length)

/-- Encodes an instruction and appends its fixups to those collected before. -/
def Inst.emit (i : Inst) (fixups : List Fixup) : Except EncodeError (UInt32 × List Fixup) := do
  let (word, more) ← i.encode
  return (word, fixups ++ more)

end Dlx
