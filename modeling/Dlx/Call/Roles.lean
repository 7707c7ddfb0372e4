import Dlx.Reg

/-!
# Register roles

Which registers carry arguments and results, which a call preserves, and which are set aside. The
allocator of the surrounding compiler sees the roles through sets and lists of physical registers
(`AllocatorView`).
-/
namespace Dlx

structure RegisterRoles where
  zero : Reg
  /-- Stack pointer. -/
  sp : Reg
  /-- Return address. -/
  ra : Reg
  fp : Reg
  gp : Option Reg
  tp : Option Reg
  /-- Whether frames are addressed through `fp`. -/
  framePointer : Bool
  /-- A register that sequences may overwrite. -/
  scratch : Reg
  arguments : List Reg
  results : List Reg
  calleeSaved : List Reg
  /-- Registers for the first words of aggregates. -/
  aggregates : List Reg
  deriving DecidableEq

namespace RegisterRoles

def standard : RegisterRoles where
  zero := .ofBits 0
  sp := .ofBits 2
  ra := .ofBits 31
  fp := .ofBits 8
  gp := some (.ofBits 3)
  tp := some (.ofBits 4)
  framePointer := false
  scratch := .ofBits 1
  arguments := [10, 11, 12, 13, 14, 15, 16, 17].map .ofBits
  results := [10, 11].map .ofBits
  calleeSaved := [8, 9, 18, 19, 20, 21, 22, 23, 24, 25, 26, 27].map .ofBits
  aggregates := [10, 11, 12, 13].map .ofBits

/-- The register that stack objects are addressed from. -/
def frameBase (r : RegisterRoles) : Reg := if r.framePointer then r.fp else r.sp

/-- The registers that hold no values of the program. -/
def reserved (r : RegisterRoles) : List Reg :=
  [r.zero, r.sp] ++ r.gp.toList ++ r.tp.toList ++ if r.framePointer then [r.fp] else []

/-- The registers that a call may overwrite. -/
def callerSaved (r : RegisterRoles) : List Reg :=
  Reg.all.filter fun x => !r.reserved.contains x && !r.calleeSaved.contains x

/-- The registers that a call preserves and that are not reserved. -/
def freeCalleeSaved (r : RegisterRoles) : List Reg :=
  r.calleeSaved.filter fun x => !r.reserved.contains x

end RegisterRoles

/-! ## The allocator's view -/

/-- The classes of physical registers that an allocator knows. -/
inductive RegClass where
  | int
  | float
  | vector
  deriving DecidableEq

/-- The register that a physical register stands for; the machine has integer registers only. -/
def Reg.ofPhysical? : RegClass → Nat → Option Reg
  | .int, index => Reg.ofNat? index
  | _, _ => none

/-- How an allocator prints a register. -/
def Reg.physicalName (r : Reg) : String := "p" ++ Text.decimal r.num.val ++ "i"

/-- The registers of a list in ascending order, each once. -/
def Reg.ascending (rs : List Reg) : List Reg := Reg.all.filter rs.contains

structure AllocatorView where
  arguments : List Reg
  results : List Reg
  /-- The set of registers that a call overwrites. -/
  clobbers : List Reg
  /-- The set of registers never handed out. -/
  reserved : List Reg
  /-- The registers to hand out first, by class. -/
  preferred : List (List Reg)
  nonPreferred : List (List Reg)
  fixedStackSlots : List Reg
  deriving DecidableEq

def RegisterRoles.allocatorView (r : RegisterRoles) : AllocatorView where
  arguments := r.arguments
  results := r.results
  clobbers := Reg.ascending r.callerSaved
  reserved := Reg.ascending r.reserved
  preferred := [r.callerSaved, [], []]
  nonPreferred := [r.freeCalleeSaved, [], []]
  fixedStackSlots := []

end Dlx
