import Dlx.Inst
import Dlx.Opcode.Layout
import Dlx.Source.Expression
import Dlx.Text.Line

/-!
# Statements

A source line holds labels and then at most one directive or instruction; a comment starts at `;` or
`#`. The operands of an instruction are matched with the slots of its layout here, and constants are
checked against their field, so that what a line yields can be encoded.
-/
namespace Dlx

inductive Statement where
  | label (name : String)
  /-- Go on in the section of this name. -/
  | enter (name : String)
  | makeGlobal (name : String)
  | data (size : Nat) (values : List Expr)
  | inst (i : Inst)
  deriving DecidableEq

namespace Source

/-- Why an expression cannot stand in a slot. -/
inductive SlotFault where
  | signedRange
  | unsignedRange
  /-- The target is no multiple of four or is too far. -/
  | badTarget (value : Int64)
  | wrongOperand (operand : Operand)
  deriving DecidableEq

def SlotFault.message : SlotFault → String
  | .signedRange => "immediate must be an integer in the range [-32768, 32767]"
  | .unsignedRange => "immediate must be an integer in the range [0, 65535]"
  | .badTarget value => "target " ++ Text.signed value.toInt ++ " is misaligned or out of range"
  | .wrongOperand operand => "operand '" ++ operand.text ++ "' is not valid here"

/-- What is wrong with a line. -/
inductive LineFault where
  | unreadable (text : String)
  | unknownInstruction (mnemonic : String)
  | memoryForm (op : Opcode)
  | operandCount (op : Opcode) (expected found : Nat)
  | expectedRegister (op : Opcode) (index : Nat)
  | expectedImmediate (op : Opcode) (index : Nat)
  | operand (op : Opcode) (fault : SlotFault)
  | malformedDirective (text : String)
  | unknownDirective (name : String)
  | severalGlobals
  deriving DecidableEq

def LineFault.message : LineFault → String
  | .unreadable text => "cannot parse '" ++ text ++ "'"
  | .unknownInstruction mnemonic => "unknown instruction '" ++ mnemonic ++ "'"
  | .memoryForm op => op.mnemonic ++ " expects 'reg, offset(base)'"
  | .operandCount op expected found =>
    op.mnemonic ++ " expects " ++ Text.decimal expected ++ " operands, found " ++ Text.decimal found
  | .expectedRegister op index =>
    op.mnemonic ++ " operand " ++ Text.decimal index ++ ": expected a register"
  | .expectedImmediate op index =>
    op.mnemonic ++ " operand " ++ Text.decimal index ++ ": expected an immediate"
  | .operand op fault => op.mnemonic ++ ": " ++ fault.message
  | .malformedDirective text => "malformed directive '" ++ text ++ "'"
  | .unknownDirective name => "unknown directive '" ++ name ++ "'"
  | .severalGlobals => "one symbol per .globl"

/-- Why a line is refused. -/
inductive LineError where
  | fault (f : LineFault)
  /-- The opcode of its instruction has no layout. -/
  | noEncoding (op : Opcode)
  deriving DecidableEq

/-! ## Operands -/

/-- An operand as written. -/
inductive Written where
  | reg (r : Reg)
  /-- `offset(base)` -/
  | mem (offset : Expr) (base : Reg)
  | expr (e : Expr)
  deriving DecidableEq

/-- A register in parentheses. -/
def base : Reader Reg := fun cs => do
  let (_, rest) ← char '(' cs
  let (r, rest) ← spaced register rest
  let (_, rest) ← char ')' rest
  return (r, rest)

/-- A base register after an offset, which is zero if left out. -/
def memory : Reader Written := fun cs =>
  let (offset, rest) := (expression cs).getD (.const 0, cs)
  (base rest).map fun (r, rest) => (.mem offset r, rest)

def written : Reader Written := fun cs =>
  match memory cs with
  | some result => some result
  | none =>
    match register cs with
    | some (r, rest) => some (.reg r, rest)
    | none => (expression cs).map fun (e, rest) => (.expr e, rest)

/-- Whether a constant fits the field of its operand class. -/
def fitsField (cls : OperandClass) (v : Int64) : Bool :=
  match cls with
  | .simm16 => -0x8000 ≤ v.toInt && v.toInt ≤ 0x7fff
  | .uimm16 => 0 ≤ v.toInt && v.toInt ≤ 0xffff
  | .branch => v.toInt % 4 = 0 && -0x20000 ≤ v.toInt && v.toInt < 0x20000
  | .call => v.toInt % 4 = 0 && -0x8000000 ≤ v.toInt && v.toInt < 0x8000000
  | .jump => v.toInt % 4 = 0 && 0 ≤ v.toInt && v.toInt < 0x10000000
  | .reg => false

def rangeFault (cls : OperandClass) (v : Int64) : SlotFault :=
  match cls with
  | .simm16 => .signedRange
  | .uimm16 => .unsignedRange
  | _ => .badTarget v

/-- Whether an expression with symbols may stand in a slot. -/
def fitsSlot (cls : OperandClass) (o : Operand) : Bool :=
  match cls with
  | .simm16 | .uimm16 => o.isLowHalf || o.isHighHalf || o.isPlainSymbol
  | .branch | .jump => o.isPlainSymbol
  | .call => o.isCallTarget
  | .reg => false

/-- Matches an expression with a slot that takes no register. A constant is checked, unless a marker
stands outermost: what the marker leaves is a field already. -/
def operandFor (cls : OperandClass) (e : Expr) : Except SlotFault Operand :=
  match e.constant? with
  | some v =>
    if (Operand.expr e).isMarked || fitsField cls v then .ok (.imm v) else .error (rangeFault cls v)
  | none => if fitsSlot cls (.expr e) then .ok (.expr e) else .error (.wrongOperand (.expr e))

/-- Matches the operand with the given index with its slot. -/
def matchOperand (op : Opcode) (index : Nat) (slot : Slot) (w : Written) :
    Except LineFault Operand :=
  match slot.cls, w with
  | .reg, .reg r => .ok (.reg r)
  | .reg, _ => .error (.expectedRegister op index)
  | cls, .expr e => (operandFor cls e).mapError (.operand op)
  | _, _ => .error (.expectedImmediate op index)

def matchOperands (op : Opcode) (index : Nat) :
    List (Slot × Written) → Except LineFault (List Operand)
  | [] => .ok []
  | (slot, w) :: rest => do
    let operand ← matchOperand op index slot w
    return operand :: (← matchOperands op (index + 1) rest)

/-- Loads and stores are written as a register and a memory operand. -/
def expandMemory (op : Opcode) (ws : List Written) : Except LineFault (List Written) :=
  if op.isMemory then
    match ws with
    | [.reg r, .mem offset b] => .ok [.reg r, .reg b, .expr offset]
    | _ => .error (.memoryForm op)
  else .ok ws

def matchInst (op : Opcode) (layout : Layout) (ws : List Written) : Except LineFault Inst := do
  let ws ← expandMemory op ws
  if ws.length = layout.slots.length then
    return ⟨op, ← matchOperands op 0 (layout.slots.zip ws)⟩
  else throw (.operandCount op layout.slots.length ws.length)

/-- Matches what is written behind an opcode with its layout. -/
def buildInst (op : Opcode) (ws : List Written) : Except LineError Inst :=
  match op.layout? with
  | none => .error (.noEncoding op)
  | some layout => (matchInst op layout ws).mapError .fault

/-! ## Lines -/

/-- A mnemonic, and after at least one space its operands. -/
def instruction : Reader (String × List Written) := fun cs =>
  (name cs).map fun (mnemonic, rest) =>
    match rest with
    | [] => ((mnemonic, []), rest)
    | c :: _ =>
      if Text.isSpace c then
        let (ws, rest) := optionalItems (spaced written) (skipSpaces rest)
        ((mnemonic, ws), rest)
      else ((mnemonic, []), rest)

def lowerCase (s : String) : String := String.ofList (s.toList.map Char.toLower)

def readInst (cs : List Char) : Except LineError Inst :=
  match whole instruction cs with
  | none => .error (.fault (.unreadable (String.ofList cs)))
  | some (mnemonic, ws) =>
    match Opcode.ofMnemonic? (lowerCase mnemonic) with
    | none => .error (.fault (.unknownInstruction mnemonic))
    | some op => buildInst op ws

/-- The size of the values of a data directive. -/
def dataSize? : String → Option Nat
  | ".byte" => some 1
  | ".half" => some 2
  | ".word" => some 4
  | ".dword" => some 8
  | _ => none

def readDirective (cs : List Char) : Except LineFault Statement :=
  let directive := String.ofList (cs.takeWhile fun c => !Text.isBlank c)
  let args := Text.trim (cs.dropWhile fun c => !Text.isBlank c)
  let malformed := LineFault.malformedDirective (String.ofList cs)
  match directive with
  | ".text" | ".data" => .ok (.enter directive)
  | ".section" =>
    match whole (spaced name) args with
    | some n => .ok (.enter n)
    | none => .error malformed
  | ".globl" | ".global" =>
    match whole (items (spaced name)) args with
    | some [n] => .ok (.makeGlobal n)
    | some _ => .error .severalGlobals
    | none => .error malformed
  | _ =>
    match dataSize? directive with
    | none => .error (.unknownDirective directive)
    | some size =>
      match whole (items (spaced expression)) args with
      | some values => .ok (.data size values)
      | none => .error malformed

/-- A name with a colon after it. -/
def label : Reader String := fun cs =>
  (spaced name cs).bind fun (n, rest) => (char ':' rest).map fun (_, rest) => (n, rest)

/-- Takes the labels off the front of a line. The fuel bounds their number. -/
def takeLabels : Nat → List Char → List String × List Char
  | 0, cs => ([], cs)
  | fuel + 1, cs =>
    match label cs with
    | none => ([], cs)
    | some (n, rest) =>
      let (more, rest) := takeLabels fuel (Text.trim rest)
      (n :: more, rest)

/-- A line up to its comment. -/
def beforeComment (cs : List Char) : List Char := cs.takeWhile fun c => c ≠ ';' && c ≠ '#'

def readLine (cs : List Char) : Except LineError (List Statement) :=
  let code := Text.trim (beforeComment cs)
  let (names, rest) := takeLabels code.length code
  let labels := names.map Statement.label
  match rest with
  | [] => .ok labels
  | '.' :: _ => do return labels ++ [← (readDirective rest).mapError .fault]
  | _ => do return labels ++ [.inst (← readInst rest)]

/-- Why a source text is refused. -/
inductive SourceError where
  /-- A fault and the number of its line. -/
  | fault (line : Nat) (f : LineFault)
  /-- The opcode of an instruction has no layout. -/
  | noEncoding (op : Opcode)
  deriving DecidableEq

def SourceError.message : SourceError → String
  | .fault line f => "line " ++ Text.decimal line ++ ": " ++ f.message
  | .noEncoding op => op.noEncodingMessage

def LineError.onLine (line : Nat) : LineError → SourceError
  | .fault f => .fault line f
  | .noEncoding op => .noEncoding op

/-- The statements of a line, whose number is given for the error. -/
def readNumberedLine (line : Nat) (cs : List Char) : Except SourceError (List Statement) :=
  (readLine cs).mapError (LineError.onLine line)

def readLines (line : Nat) : List (List Char) → Except SourceError (List Statement)
  | [] => .ok []
  | cs :: rest => do
    let statements ← readNumberedLine line cs
    return statements ++ (← readLines (line + 1) rest)

/-- The statements of a whole source text. -/
def readProgram (source : String) : Except SourceError (List Statement) :=
  readLines 1 (Text.lines source.toList)

end Source

end Dlx
