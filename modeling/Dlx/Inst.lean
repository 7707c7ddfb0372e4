import Dlx.Expr
import Dlx.Opcode
import Dlx.Reg

/-!
# Instructions

An instruction is an opcode with its operands in the order of the layout. The address operand of a
load or store is printed as `offset(base)`.
-/
namespace Dlx

inductive Operand where
  | reg (r : Reg)
  | imm (value : Int64)
  | expr (e : Expr)
  deriving DecidableEq

namespace Operand

def text : Operand → String
  | .reg r => r.text
  | .imm v => Text.signed v.toInt
  | .expr e => e.text

/-! ## Operand classes -/

def isReg : Operand → Bool
  | .reg _ => true
  | _ => false

def isImm : Operand → Bool
  | .reg _ => false
  | _ => true

def constant? : Operand → Option Int64
  | .reg _ => none
  | .imm v => some v
  | .expr e => e.constant?

/-- How an expression refers to a symbol. -/
def refers? : Operand → Option SymbolRef
  | .expr e => e.refers?
  | _ => none

def marker? (o : Operand) : Option Marker := o.refers?.map (·.marker)

/-- Whether a marker stands outermost. -/
def isMarked : Operand → Bool
  | .expr (.marked _ _) => true
  | _ => false

/-- A constant of 16 bits with sign, or a low half. -/
def isSigned16 (o : Operand) : Bool :=
  match o.constant? with
  | some v => -0x8000 ≤ v && v ≤ 0x7fff
  | none => o.marker? = some .lo

/-- A constant of 16 bits without sign, or a half. -/
def isUnsigned16 (o : Operand) : Bool :=
  match o.constant? with
  | some v => 0 ≤ v && v ≤ 0xffff
  | none => o.marker? = some .lo || o.marker? = some .hi

/-- A symbol, possibly at a distance, without a marker. -/
def isPlainSymbol (o : Operand) : Bool :=
  o.refers?.any fun r => r.marker = .none && r.symbol.isSome && r.subtrahend.isNone

/-- A bare symbol or an explicit call distance. -/
def isCallTarget (o : Operand) : Bool := o.isPlainSymbol || o.marker? = some .call

def isHighHalf (o : Operand) : Bool := o.isMarked && o.marker? = some .hi

def isLowHalf (o : Operand) : Bool := o.isMarked && o.marker? = some .lo

end Operand

structure Inst where
  opcode : Opcode
  operands : List Operand
  deriving DecidableEq

namespace Inst

/-- Two registers and an immediate: arithmetic, loads and stores. -/
def regImm (op : Opcode) (rd rs : Reg) (imm : Int64) : Inst := ⟨op, [.reg rd, .reg rs, .imm imm]⟩

/-- Copies a register by adding zero. -/
def copy (rd rs : Reg) : Inst := regImm .addi rd rs 0

def text (i : Inst) : String :=
  i.opcode.mnemonic ++
    match i.opcode.isMemory, i.operands with
    | _, [] => ""
    | true, [r, base, offset] => " " ++ r.text ++ ", " ++ offset.text ++ "(" ++ base.text ++ ")"
    | _, ops => " " ++ String.intercalate ", " (ops.map Operand.text)

end Inst

end Dlx
