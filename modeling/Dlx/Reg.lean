import Dlx.Text.Numeral

/-!
# Registers

The machine has 32 general registers, printed `r0` to `r31`. Six have a name of their own, and
`a0` to `a7` name the argument registers `r10` to `r17`.
-/
namespace Dlx

structure Reg where
  num : Fin 32
  deriving DecidableEq

namespace Reg

/-- The register of a number, if there is one. -/
def ofNat? (n : Nat) : Option Reg := if h : n < 32 then some ⟨⟨n, h⟩⟩ else none

/-- The register whose number the low five bits of `n` spell. -/
def ofBits (n : Nat) : Reg := ⟨⟨n % 32, Nat.mod_lt _ (by decide)⟩⟩

/-- All registers in ascending order. -/
def all : List Reg := (List.finRange 32).map Reg.mk

def text (r : Reg) : String := "r" ++ Text.decimal r.num.val

/-- The registers that a name of their own stands for. -/
def named : List (String × Reg) :=
  [("zero", ofBits 0), ("sp", ofBits 2), ("gp", ofBits 3), ("tp", ofBits 4), ("fp", ofBits 8),
   ("ra", ofBits 31)]

/-- Reads the number in a register name; it is held in one byte. -/
def index? (cs : List Char) (bound : Nat) : Option Nat :=
  (Text.readUpTo? 10 255 cs).filter (· < bound)

/-- Reads a register name: a name of its own, `a` with 0 to 7, or `r` or `R` with 0 to 31. -/
def ofName? (name : String) : Option Reg :=
  match named.lookup name with
  | some r => some r
  | none =>
    match name.toList with
    | 'a' :: digits => (index? digits 8).bind fun n => ofNat? (10 + n)
    | 'r' :: digits => (index? digits 32).bind ofNat?
    | 'R' :: digits => (index? digits 32).bind ofNat?
    | _ => none

/-- What is said of a name that is no register's. -/
def unknownName (name : String) : String := "Invalid register name: " ++ name

end Reg

end Dlx
