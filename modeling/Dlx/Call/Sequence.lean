import Dlx.Call.Convention
import Dlx.Call.Move

/-!
# The instructions of calls and returns

A call becomes: the stack adjustment, if there is a stack area; the stores of stack arguments; the
moves into argument registers; the jump; and the adjustment back. Stack parts of aggregates are
copied through the scratch register before any argument register is written.
-/
namespace Dlx

/-- Where the caller has an argument. -/
inductive Holder where
  | reg (r : Reg)
  | pair (lo hi : Reg)
  /-- An aggregate at `offset(base)`. -/
  | memory (base : Reg) (offset : Int)
  deriving DecidableEq

structure HeldArgument where
  value : Argument
  holder : Holder
  deriving DecidableEq

/-- The register roles and the alignment of the stack. -/
structure CallTarget where
  roles : RegisterRoles
  stackAlign : Nat
  deriving DecidableEq

/-- A number as a signed 16-bit immediate of a call whose frame has `frame` bytes. -/
def imm16 (frame : Nat) (v : Int) : Except CallError Int64 :=
  if -0x8000 ≤ v ∧ v ≤ 0x7fff then .ok (Int64.ofInt v) else .error (.frameTooLarge frame)

/-- Whether a holder is the register `r` or is addressed through it. -/
def Holder.involves (s : Holder) (r : Reg) : Bool :=
  match s with
  | .reg x => x = r
  | .pair lo hi => lo = r || hi = r
  | .memory base _ => base = r

/-- Whether an aggregate has a part on the stack. -/
def Location.copiesToStack : Location → Bool
  | .aggregate _ _ size => 0 < size
  | _ => false

/-- Offset of an argument in memory once the stack pointer has moved down by the frame. -/
def heldOffset (roles : RegisterRoles) (frame : Nat) (base : Reg) (offset : Int) : Int :=
  if base = roles.sp then offset + frame else offset

/-- Loads of the first words of an aggregate. -/
def aggregateLoads (frame : Nat) (base : Reg) (offset : Int) :
    List Reg → Except CallError (List Move)
  | [] => .ok []
  | r :: rest => do
    let here ← imm16 frame offset
    return ⟨r, .load base here⟩ :: (← aggregateLoads frame base (offset + 4) rest)

/-- A load into the scratch register and a store from it. -/
def copyPiece (roles : RegisterRoles) (frame : Nat) (load store : Opcode) (base : Reg)
    (src : Int) (dst : Nat) : Except CallError (List Inst) := do
  let offset ← imm16 frame src
  return [.regImm load roles.scratch base offset,
    .regImm store roles.scratch roles.sp (Int64.ofNat dst)]

/-- Copies of `count` pieces of `size` bytes each. -/
def copyPieces (roles : RegisterRoles) (frame : Nat) (load store : Opcode) (size : Nat)
    (base : Reg) : Nat → Int → Nat → Except CallError (List Inst)
  | 0, _, _ => .ok []
  | count + 1, src, dst => do
    let piece ← copyPiece roles frame load store base src dst
    return piece ++ (← copyPieces roles frame load store size base count (src + size) (dst + size))

/-- Copies bytes to the stack: words, then the bytes left over. -/
def copyToStack (roles : RegisterRoles) (frame : Nat) (base : Reg) (src : Int) (dst size : Nat) :
    Except CallError (List Inst) := do
  let whole := size / 4
  let words ← copyPieces roles frame .lw .sw 4 base whole src dst
  let rest ← copyPieces roles frame .lbu .sb 1 base (size % 4) (src + 4 * whole) (dst + 4 * whole)
  return words ++ rest

/-- The stores and the moves for the argument with an index. -/
def argSequence (roles : RegisterRoles) (frame index : Nat) (holder : Holder)
    (location : Location) : Except CallError (List Inst × List Move) :=
  match location, holder with
  | .reg dst, .reg src => .ok ([], [.copy dst src])
  | .pair lo hi, .pair srcLo srcHi => .ok ([], [.copy lo srcLo, .copy hi srcHi])
  | .stack offset _, .reg src => .ok ([.regImm .sw src roles.sp (Int64.ofNat offset)], [])
  | .stack offset _, .pair lo hi =>
    .ok ([.regImm .sw lo roles.sp (Int64.ofNat offset),
      .regImm .sw hi roles.sp (Int64.ofNat (offset + 4))], [])
  | .aggregate regs stackOffset stackSize, .memory base offset => do
    let start := heldOffset roles frame base offset
    let moves ← aggregateLoads frame base start regs
    let stores ← copyToStack roles frame base (start + 4 * regs.length) stackOffset stackSize
    return (stores, moves)
  | .stack _ _, .memory _ _ => .error (.argument index .stackNeedsRegister)
  | .aggregate _ _ _, _ => .error (.argument index .aggregateNeedsMemory)
  | _, _ => .error (.argument index .wrongRegisters)

def argSequences (roles : RegisterRoles) (frame index : Nat) :
    List (Holder × Location) → Except CallError (List Inst × List Move)
  | [] => .ok ([], [])
  | (holder, location) :: rest => do
    let (stores, moves) ← argSequence roles frame index holder location
    let (moreStores, moreMoves) ← argSequences roles frame (index + 1) rest
    return (stores ++ moreStores, moves ++ moreMoves)

/-- Copies to the stack overwrite the scratch register, so then no holder may involve it. -/
def checkScratch (roles : RegisterRoles) (args : List HeldArgument) (locations : List Location) :
    Except CallError Unit :=
  if locations.any Location.copiesToStack then
    match args.findIdx? (·.holder.involves roles.scratch) with
    | some index => .error (.argument index .scratchSource)
    | none => .ok ()
  else .ok ()

/-- Moves the stack pointer, unless there is nothing to move it by. -/
def adjustStack (roles : RegisterRoles) (amount : Int) : List Inst :=
  if amount = 0 then [] else [.regImm .addi roles.sp roles.sp (Int64.ofInt amount)]

def sequenceMoves (roles : RegisterRoles) (moves : List Move) : Except CallError (List Inst) :=
  match Move.sequence roles.scratch moves with
  | some is => .ok is
  | none => .error .scratchCycle

/-- The instructions of a call. -/
def callSequence (target : CallTarget) (cc : Convention) (callee : String)
    (args : List HeldArgument) : Except CallError (List Inst) := do
  let roles := target.roles
  let layout ← callLayout cc roles (args.map (·.value))
  if target.stackAlign = 0 then throw .zeroAlignment
  let frame := alignUp layout.stackSize target.stackAlign
  let _ ← imm16 frame frame
  checkScratch roles args layout.locations
  let (stores, moves) ← argSequences roles frame 0 ((args.map (·.holder)).zip layout.locations)
  let moves ← sequenceMoves roles moves
  return adjustStack roles (-frame) ++ stores ++ moves ++ [⟨.jal, [.expr (.sym callee)]⟩] ++
    adjustStack roles frame

/-- The moves for the result with an index. -/
def resultMoves (index : Nat) (holder : Holder) (location : Location) :
    Except CallError (List Move) :=
  match location, holder with
  | .reg dst, .reg src => .ok [.copy dst src]
  | .pair lo hi, .pair srcLo srcHi => .ok [.copy lo srcLo, .copy hi srcHi]
  | _, _ => .error (.argument index .wrongResult)

def allResultMoves (index : Nat) : List (Holder × Location) → Except CallError (List Move)
  | [] => .ok []
  | (holder, location) :: rest => do
    return (← resultMoves index holder location) ++ (← allResultMoves (index + 1) rest)

/-- The instructions of a return: results into their registers, then the jump back. -/
def returnSequence (target : CallTarget) (cc : Convention) (values : List (ValueType × Holder)) :
    Except CallError (List Inst) := do
  let roles := target.roles
  let locations ← returnLayout cc roles (values.map (·.1))
  let moves ← allResultMoves 0 ((values.map (·.2)).zip locations)
  return (← sequenceMoves roles moves) ++ [⟨.jr, [.reg roles.ra]⟩]

/-- Puts the address of a symbol at a distance into a register: the high half, then the low. -/
def addressSequence (dst : Reg) (symbol : String) (offset : Int64) : List Inst :=
  let address := Expr.symAt symbol offset
  [⟨.lhi, [.reg dst, .expr (address.withMarker .hi)]⟩,
    ⟨.addi, [.reg dst, .reg dst, .expr (address.withMarker .lo)]⟩]

/-! ## Frame indices -/

/-- A node of the code that is being selected, as far as it is decided here. -/
inductive Node where
  /-- A machine instruction already. -/
  | machine
  /-- The address of a stack object, by its offset from the frame register. -/
  | frameIndex (dst : Reg) (offset : Int)
  | generic
  deriving DecidableEq

/-- What becomes of a node. -/
inductive Selection where
  /-- It is done. -/
  | done
  /-- An instruction takes its place. -/
  | replaced (i : Inst)
  /-- It is left to the general patterns. -/
  | byPattern
  deriving DecidableEq

def selectNode (roles : RegisterRoles) : Node → Except CallError Selection
  | .machine => .ok .done
  | .frameIndex dst offset => do
    return .replaced (.regImm .addi dst roles.frameBase (← imm16 offset.natAbs offset))
  | .generic => .ok .byPattern

end Dlx
