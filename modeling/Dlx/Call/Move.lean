import Dlx.Inst

/-!
# Moves at once

The registers of a call are filled as if all moves happened at the same time. `sequence` orders
them: a move is emitted once no other reads what it overwrites. When every move left is in the way
of another, the register that the first overwrites is copied to a scratch register, and whoever
reads it reads the copy.
-/
namespace Dlx

inductive MoveSource where
  | reg (r : Reg)
  /-- The word at `offset(base)`. -/
  | load (base : Reg) (offset : Int64)
  deriving DecidableEq

structure Move where
  dst : Reg
  src : MoveSource
  deriving DecidableEq

namespace Move

def copy (dst src : Reg) : Move := ⟨dst, .reg src⟩

/-- The register that a move reads. -/
def readReg (m : Move) : Reg :=
  match m.src with
  | .reg r => r
  | .load base _ => base

/-- Reads `new` in place of `old`. -/
def replaceRead (old new : Reg) (m : Move) : Move :=
  if m.readReg = old then
    match m.src with
    | .reg _ => ⟨m.dst, .reg new⟩
    | .load _ offset => ⟨m.dst, .load new offset⟩
  else m

def inst (m : Move) : Inst :=
  match m.src with
  | .reg r => .copy m.dst r
  | .load base offset => .regImm .lw m.dst base offset

/-- Whether a move changes nothing. -/
def isTrivial (m : Move) : Bool := m.src = .reg m.dst

/-- The first move whose destination no other reads, and the others. `seen` are those in front. -/
def pickReady (seen : List Move) : List Move → Option (Move × List Move)
  | [] => none
  | m :: rest =>
    if (seen ++ rest).all (·.readReg ≠ m.dst) then some (m, seen ++ rest)
    else pickReady (seen ++ [m]) rest

/-- Orders moves of which none is trivial. Each step emits one of them, so their number is fuel
enough. There is no order if the scratch register would have to be saved in itself. -/
def order (scratch : Reg) : Nat → List Move → Option (List Inst)
  | 0, _ => some []
  | _, [] => some []
  | fuel + 1, m :: rest =>
    match pickReady [] (m :: rest) with
    | some (ready, others) => (order scratch fuel others).map (ready.inst :: ·)
    | none =>
      if m.dst = scratch then none
      else
        let others := rest.map (replaceRead m.dst scratch)
        (order scratch fuel others).map fun is =>
          .copy scratch m.dst :: (m.replaceRead m.dst scratch).inst :: is

/-- The instructions that carry out all moves at once. -/
def sequence (scratch : Reg) (moves : List Move) : Option (List Inst) :=
  let moves := moves.filter (!·.isTrivial)
  order scratch moves.length moves

end Move

end Dlx
