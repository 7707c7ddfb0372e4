import Dlx.Call.Roles

/-!
# The calling convention

Arguments go to registers in order, two-word values to two of them, until one has to go on the
stack; plain values after it follow it there. The first words of an aggregate passed by value go to the
aggregate registers and the rest to the stack.

Sizes and offsets are natural numbers. A count of 32 bits has the same ones as long as the sizes of the
arguments, each rounded up to words, add up to less than 2^32.
-/
namespace Dlx

inductive Convention where
  | c
  | fast
  /-- Some other convention, by its number; none is supported. -/
  | other (id : Nat)
  deriving DecidableEq

def Convention.name : Convention → String
  | .c => "ccc"
  | .fast => "fastcc"
  | .other id => "cc" ++ Text.decimal id

def Convention.isSupported : Convention → Bool
  | .other _ => false
  | _ => true

inductive ValueType where
  | i8
  | i16
  | i32
  | f32
  | i64
  | f64
  deriving DecidableEq

def ValueType.bytes : ValueType → Nat
  | .i8 => 1
  | .i16 => 2
  | .i32 | .f32 => 4
  | .i64 | .f64 => 8

/-- Whether the value takes two words. -/
def ValueType.isTwoWords (t : ValueType) : Bool := 4 < t.bytes

inductive Argument where
  | value (type : ValueType)
  /-- An aggregate passed by value. -/
  | aggregate (size align : Nat)
  deriving DecidableEq

/-- Where an argument or result is passed. -/
inductive Location where
  | reg (r : Reg)
  /-- The low word and the high word. -/
  | pair (lo hi : Reg)
  /-- Offset in the area of outgoing arguments. -/
  | stack (offset size : Nat)
  /-- The first words in registers, and `size` more bytes at `offset`. -/
  | aggregate (regs : List Reg) (offset size : Nat)
  deriving DecidableEq

/-- The next multiple of `align`, which is positive. -/
def alignUp (n align : Nat) : Nat := (n + (align - 1)) / align * align

/-- What has been given out so far. -/
structure CallState where
  used : List Reg
  stackSize : Nat
  /-- Whether something went on the stack. -/
  stackUsed : Bool
  deriving DecidableEq

namespace CallState

def empty : CallState := ⟨[], 0, false⟩

def isFree (s : CallState) (r : Reg) : Bool := !s.used.contains r

/-- Takes the first free register of a list. -/
def takeReg? (s : CallState) (list : List Reg) : Option (Reg × CallState) :=
  (list.find? s.isFree).map fun r => (r, { s with used := s.used ++ [r] })

/-- Takes the first two free registers of a list, or none. -/
def takePair? (s : CallState) (list : List Reg) : Option ((Reg × Reg) × CallState) :=
  match list.filter s.isFree with
  | lo :: hi :: _ => some ((lo, hi), { s with used := s.used ++ [lo, hi] })
  | _ => none

/-- Takes stack space at the next multiple of a positive alignment. -/
def takeStack (s : CallState) (size align : Nat) : Nat × CallState :=
  let offset := alignUp s.stackSize align
  (offset, { s with stackSize := offset + size, stackUsed := true })

/-- Takes stack space, if the alignment is positive. -/
def takeStack? (s : CallState) (size align : Nat) : Option (Nat × CallState) :=
  if align = 0 then none else some (s.takeStack size align)

/-- A register or pair for a plain value. -/
def takeRegs? (s : CallState) (list : List Reg) (type : ValueType) :
    Option (Location × CallState) :=
  if type.isTwoWords then (s.takePair? list).map fun ((lo, hi), s) => (.pair lo hi, s)
  else (s.takeReg? list).map fun (r, s) => (.reg r, s)

/-- A stack slot for a plain value. -/
def stackValue (s : CallState) (type : ValueType) : Location × CallState :=
  let size := if type.isTwoWords then 8 else 4
  let (offset, s) := s.takeStack size 4
  (.stack offset size, s)

/-- Places a plain value. -/
def placeValue (s : CallState) (roles : RegisterRoles) (type : ValueType) : Location × CallState :=
  if s.stackUsed then s.stackValue type
  else (s.takeRegs? roles.arguments type).getD (s.stackValue type)

/-- Places an aggregate on the stack as a whole. -/
def stackAggregate (s : CallState) (size : Nat) : Location × CallState :=
  let (offset, s) := s.takeStack size 4
  (.aggregate [] offset size, s)

/-- Takes `count` more registers, and gives the last one taken in place of `last`. -/
def skipRegs (s : CallState) (list : List Reg) (last : Reg) : Nat → Option Reg × CallState
  | 0 => (some last, s)
  | count + 1 =>
    match s.takeReg? list with
    | some (r, s) => s.skipRegs list r count
    | none => (none, s)

/-- Places an aggregate in the registers of `list` from `index` on, and the rest on the stack. -/
def splitAggregate (s : CallState) (list : List Reg) (index size : Nat) : Location × CallState :=
  let regs := (list.drop index).take (max ((size + 3) / 4) 1)
  let s := { s with used := s.used ++ regs.drop 1 }
  let rest := size - 4 * regs.length
  if rest = 0 then (.aggregate regs s.stackSize 0, s)
  else
    let (offset, s) := s.takeStack rest 4
    (.aggregate regs offset rest, s)

/-- Places an aggregate. Registers are passed over until as many are left as the alignment divides.
An aggregate that the registers left cannot hold goes to the stack as a whole once the stack is in
use, and takes the registers with it. -/
def placeAggregate (s : CallState) (roles : RegisterRoles) (size align : Nat) :
    Location × CallState :=
  let list := roles.aggregates
  match s.takeReg? list with
  | none => s.stackAggregate size
  | some (first, s) =>
    let waste := (list.length - list.idxOf first) % (max align 4 / 4)
    match s.skipRegs list first waste with
    | (none, s) => s.stackAggregate size
    | (some r, s) =>
      let index := list.idxOf r
      if s.stackSize ≠ 0 ∧ 4 * (list.length - index) < size then
        let s := { s with used := s.used ++ list.filter s.isFree }
        s.stackAggregate size
      else s.splitAggregate list index size

def place (s : CallState) (roles : RegisterRoles) : Argument → Location × CallState
  | .value type => s.placeValue roles type
  | .aggregate size align => s.placeAggregate roles size align

def placeAll (s : CallState) (roles : RegisterRoles) : List Argument → List Location × CallState
  | [] => ([], s)
  | a :: rest =>
    let (location, s) := s.place roles a
    let (more, s) := s.placeAll roles rest
    (location :: more, s)

end CallState

/-! ## Calls and returns -/

/-- Why an argument or result cannot be passed from where it is. -/
inductive Mismatch where
  | scratchSource
  | stackNeedsRegister
  | aggregateNeedsMemory
  | wrongRegisters
  | wrongResult
  deriving DecidableEq

def Mismatch.message : Mismatch → String
  | .scratchSource => "argument source is the scratch register"
  | .stackNeedsRegister => "stack argument needs a register source"
  | .aggregateNeedsMemory => "by-value argument needs a memory source"
  | .wrongRegisters => "source does not match assigned registers"
  | .wrongResult => "return value source does not match its registers"

inductive CallError where
  | unsupportedConvention (cc : Convention)
  /-- The results need more than the result registers. -/
  | returnSplit
  | frameTooLarge (size : Nat)
  | argument (index : Nat) (reason : Mismatch)
  /-- The stack has no alignment. -/
  | zeroAlignment
  /-- A cycle of moves runs through the scratch register, so nothing can break it. -/
  | scratchCycle
  deriving DecidableEq

def CallError.message : CallError → String
  | .unsupportedConvention cc => "Unsupported calling convention: " ++ cc.name
  | .returnSplit => "Return value could not be split into two registers"
  | .frameTooLarge size =>
    "call frame of " ++ Text.decimal size ++ " bytes does not fit an immediate"
  | .argument index reason => "argument " ++ Text.decimal index ++ ": " ++ reason.message
  | .zeroAlignment => "the stack alignment is zero"
  | .scratchCycle => "a cycle of moves runs through the scratch register"

/-- The state at the start of a call under a supported convention. -/
def CallState.start (cc : Convention) : Except CallError CallState :=
  if cc.isSupported then .ok .empty else .error (.unsupportedConvention cc)

/-- The locations of a call's arguments and the size of its stack area. -/
structure CallLayout where
  locations : List Location
  stackSize : Nat
  deriving DecidableEq

def callLayout (cc : Convention) (roles : RegisterRoles) (args : List Argument) :
    Except CallError CallLayout := do
  let (locations, s) := (← CallState.start cc).placeAll roles args
  return ⟨locations, s.stackSize⟩

def CallState.placeResults (s : CallState) (roles : RegisterRoles) :
    List ValueType → Except CallError (List Location)
  | [] => .ok []
  | t :: rest =>
    match s.takeRegs? roles.results t with
    | none => .error .returnSplit
    | some (location, s) => do return location :: (← s.placeResults roles rest)

/-- The locations of results, which never go on the stack. -/
def returnLayout (cc : Convention) (roles : RegisterRoles) (types : List ValueType) :
    Except CallError (List Location) := do
  (← CallState.start cc).placeResults roles types

end Dlx
