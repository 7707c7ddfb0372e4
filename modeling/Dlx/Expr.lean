import Dlx.Half
import Dlx.Text.Numeral

/-!
# Expressions

Operands and data values are sums and differences of 64-bit constants and symbols. A marker such as
`%lo(…)` around an expression says which part of its value is meant.

`Expr.constant?` folds an expression without symbols and `Expr.text` prints one. `Expr.refers?`
splits an expression into the shape that a fixup can carry: a symbol, possibly less another symbol,
plus a constant.
-/
namespace Dlx

/-- The part of an address that a marked expression stands for. -/
inductive Marker where
  | none
  | lo
  | hi
  | call
  /-- A marker that no modifier name stands for. -/
  | invalid
  deriving DecidableEq

namespace Marker

/-- The marker that `%name(…)` sets. -/
def ofName : String → Marker
  | "lo" => .lo
  | "hi" => .hi
  | "call" | "CALL" | "pcrel" => .call
  | _ => .invalid

/-- What is printed in front of a marked expression. -/
def opening : Marker → String
  | .lo => "%lo("
  | .hi => "%hi("
  | .call => "%pcrel("
  | .none | .invalid => ""

def name : Marker → String
  | .none => "None"
  | .lo => "Lo"
  | .hi => "Hi"
  | .call => "Call"
  | .invalid => "Invalid"

/-- What a marker makes of a constant, which it cuts to an address first. -/
def fold? (m : Marker) (v : Int64) : Option Int64 :=
  let address := v.toUInt64.toUInt32
  match m with
  | .lo => some (Int64.ofInt (signedHalf (lowHalf address)))
  | .hi => some (Int64.ofNat (highHalf address).toNat)
  | .none => some (Int64.ofNat address.toNat)
  | .call | .invalid => Option.none

end Marker

inductive BinOp where
  | add
  | sub
  deriving DecidableEq

def BinOp.sign : BinOp → String
  | .add => "+"
  | .sub => "-"

/-- Addition and subtraction wrap at 64 bits. -/
def BinOp.apply : BinOp → Int64 → Int64 → Int64
  | .add, a, b => a + b
  | .sub, a, b => a - b

inductive Expr where
  | const (value : Int64)
  | sym (name : String)
  | bin (op : BinOp) (left right : Expr)
  | marked (marker : Marker) (inner : Expr)
  deriving DecidableEq

namespace Expr

def add (left right : Expr) : Expr := .bin .add left right

def sub (left right : Expr) : Expr := .bin .sub left right

/-- A symbol at a distance; a distance of zero is left out and a negative one is subtracted. -/
def symAt (name : String) (offset : Int64) : Expr :=
  if offset = 0 then .sym name
  else if 0 < offset then add (.sym name) (.const offset)
  else sub (.sym name) (.const (-offset))

/-- Marks an expression; the marker `none` leaves it as it is. -/
def withMarker (e : Expr) (m : Marker) : Expr := if m = .none then e else .marked m e

/-- The outermost marker. -/
def marker : Expr → Marker
  | .marked m _ => m
  | _ => .none

/-- The value of an expression in which no symbol occurs. -/
def constant? : Expr → Option Int64
  | .const v => some v
  | .sym _ => none
  | .bin op l r => do return op.apply (← l.constant?) (← r.constant?)
  | .marked m e => do m.fold? (← e.constant?)

def text : Expr → String
  | .const v => Text.signed v.toInt
  | .sym name => name
  | .bin op l r => l.text ++ op.sign ++ r.text
  | .marked .none e | .marked .invalid e => e.text
  | .marked m e => m.opening ++ e.text ++ ")"

end Expr

/-- `symbol - subtrahend + addend`, where either symbol may be absent, under a marker. -/
structure SymbolRef where
  marker : Marker
  symbol : Option String
  subtrahend : Option String
  addend : Int64
  deriving DecidableEq

namespace Expr

/-- Splits an unmarked expression, which stands under marker `m`. A difference of symbols has no
marker, since no part of it is an address. -/
def refersUnder? (m : Marker) : Expr → Option SymbolRef
  | .sym s => some ⟨m, some s, none, 0⟩
  | .const c => some ⟨m, none, none, c⟩
  | .bin .add (.sym s) (.const c) => some ⟨m, some s, none, c⟩
  | .bin .sub (.sym s) (.const c) => some ⟨m, some s, none, -c⟩
  | .bin .sub (.sym s) (.sym t) => if m = .none then some ⟨m, some s, some t, 0⟩ else none
  | _ => none

/-- Splits an expression with at most one marker around it. -/
def refers? : Expr → Option SymbolRef
  | .marked m e => if m = .invalid then none else e.refersUnder? m
  | e => e.refersUnder? .none

end Expr

end Dlx
