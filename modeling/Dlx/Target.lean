import Dlx.Call.Roles

/-!
# Targets

What the surrounding toolchain asks about a target that it looks up by name.
-/
namespace Dlx

inductive RelocModel where
  | static
  | pic
  deriving DecidableEq

structure Target where
  name : String
  aliases : List String
  description : String
  dataLayout : String
  elfMachine : Nat
  pointerWidth : Nat
  stackAlign : Nat
  relocModel : RelocModel
  /-- Macros that are defined when compiling for the target. -/
  defines : List String
  roles : RegisterRoles
  deriving DecidableEq

namespace Target

def dlx : Target where
  name := "dlx"
  aliases := ["dlx-unknown-elf"]
  description := "DLX 32-bit RISC"
  dataLayout := "e-m:e-p:32:32-i64:64-n32-S128"
  elfMachine := 0x5aa5
  pointerWidth := 32
  stackAlign := 16
  relocModel := .static
  defines := ["__DLX__"]
  roles := .standard

/-- The target of a name or alias. -/
def find? (name : String) : Option Target :=
  [dlx].find? fun t => t.name = name || t.aliases.contains name

/-- What is said of a name that is no target's. -/
def unknownName (name : String) : String := "unknown target: " ++ name

end Target

end Dlx
