import Dlx.Expr
import Dlx.Source.Lexeme

/-!
# Expressions as written

An expression is a chain of terms joined by `+` and `-` from left to right; spaces may stand around
the signs. A term is a marked expression `%lo(…)`, a number or a name.

The readers call each other; `fuel` bounds how deep. Each nested call starts further into the text,
so the length of the text is enough (`expression`).
-/
namespace Dlx.Source

/-- The opening of a marked expression: percent sign, modifier name and parenthesis. -/
def markerOpening : Reader String
  | '%' :: rest =>
    match rest.takeWhile isLetter, rest.dropWhile isLetter with
    | [], _ => none
    | modifier, '(' :: rest => some (String.ofList modifier, rest)
    | _, _ => none
  | _ => none

/-- The sign that joins two terms. -/
def sign : Reader BinOp
  | '+' :: rest => some (.add, rest)
  | '-' :: rest => some (.sub, rest)
  | _ => none

/-- A number or a name. -/
def atom : Reader Expr := fun cs =>
  match number cs with
  | some (v, rest) => some (.const v, rest)
  | none => (name cs).map fun (n, rest) => (.sym n, rest)

/-- Closes a marked expression whose modifier must be known. -/
def closeMarked (modifier : String) (inner : Expr) (cs : List Char) :
    Option (Expr × List Char) :=
  match char ')' cs, Marker.ofName modifier with
  | none, _ | _, .invalid => none
  | some (_, rest), m => some (.marked m inner, rest)

mutual

def expressionAt : Nat → Reader Expr
  | 0, _ => none
  | fuel + 1, cs =>
    match termAt fuel cs with
    | none => none
    | some (first, rest) => some (chainAt fuel first rest)

def termAt : Nat → Reader Expr
  | 0, _ => none
  | fuel + 1, cs =>
    match markerOpening cs with
    | none => atom cs
    | some (modifier, rest) =>
      match expressionAt fuel (skipSpaces rest) with
      | none => none
      | some (inner, rest) => closeMarked modifier inner (skipSpaces rest)

/-- The terms that follow `left`, each after a sign. -/
def chainAt : Nat → Expr → List Char → Expr × List Char
  | 0, left, cs => (left, cs)
  | fuel + 1, left, cs =>
    match spaced sign cs with
    | none => (left, cs)
    | some (op, rest) =>
      match termAt fuel rest with
      | none => (left, cs)
      | some (right, rest) => chainAt fuel (.bin op left right) rest

end

def expression : Reader Expr := fun cs => expressionAt (cs.length + 2) cs

end Dlx.Source
