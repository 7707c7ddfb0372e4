import Dlx.Bits
import Dlx.Reg
import Dlx.Text.Blank

/-!
# Lexemes of a source line

A reader takes a value off the front of a text, or refuses. This module has the readers for names,
numbers, registers and lists with commas; spaces and tabs may stand around what `spaced` reads.
-/
namespace Dlx.Source

abbrev Reader (α : Type) := List Char → Option (α × List Char)

/-- Takes one given character. -/
def char (c : Char) : Reader Unit
  | [] => none
  | d :: rest => if d = c then some ((), rest) else none

def skipSpaces (cs : List Char) : List Char := cs.dropWhile Text.isSpace

/-- Spaces and tabs may stand on either side. -/
def spaced {α : Type} (item : Reader α) : Reader α := fun cs =>
  (item (skipSpaces cs)).map fun (a, rest) => (a, skipSpaces rest)

/-- Accepts what the reader takes in full. -/
def whole {α : Type} (item : Reader α) (cs : List Char) : Option α :=
  match item cs with
  | some (a, []) => some a
  | _ => none

/-! ## Names -/

def isLetter (c : Char) : Bool := ('a' ≤ c && c ≤ 'z') || ('A' ≤ c && c ≤ 'Z')

def isDigit (c : Char) : Bool := '0' ≤ c && c ≤ '9'

/-- Characters that a name may start with. -/
def isNameStart (c : Char) : Bool := isLetter c || c == '_' || c == '.'

/-- Characters that a name may go on with. -/
def isNameChar (c : Char) : Bool := isNameStart c || isDigit c || c == '$'

def name : Reader String
  | [] => none
  | c :: rest =>
    if isNameStart c then
      some (String.ofList (c :: rest.takeWhile isNameChar), rest.dropWhile isNameChar)
    else none

def register : Reader Reg := fun cs =>
  (name cs).bind fun (n, rest) => (Reg.ofName? n).map (·, rest)

/-! ## Numbers -/

/-- The value of a numeral, decimal or after `0x` or `0X` hexadecimal, of at most 63 bits. -/
def magnitude? (cs : List Char) : Option Nat :=
  let value := match cs with
    | '0' :: 'x' :: digits | '0' :: 'X' :: digits => Text.readNat? 16 digits
    | _ => Text.readNat? 10 cs
  value.filter (· < capacity 63)

/-- A numeral is a digit with all letters and digits after it. -/
def numeral : Reader Nat
  | [] => none
  | c :: rest =>
    if isDigit c then
      let isTail := fun d => isLetter d || isDigit d
      (magnitude? (c :: rest.takeWhile isTail)).map (·, rest.dropWhile isTail)
    else none

def number : Reader Int64
  | '-' :: rest => (numeral rest).map fun (n, rest) => (-Int64.ofNat n, rest)
  | cs => (numeral cs).map fun (n, rest) => (Int64.ofNat n, rest)

/-! ## Lists -/

/-- Items that follow, each after a comma. The fuel bounds their number. -/
def moreItems {α : Type} (item : Reader α) : Nat → List Char → List α × List Char
  | 0, cs => ([], cs)
  | fuel + 1, cs =>
    match (spaced (char ',') cs).bind fun (_, rest) => item rest with
    | none => ([], cs)
    | some (a, rest) =>
      let (more, rest) := moreItems item fuel rest
      (a :: more, rest)

/-- One or more items with commas between them. -/
def items {α : Type} (item : Reader α) : Reader (List α) := fun cs =>
  (item cs).map fun (a, rest) =>
    let (more, rest) := moreItems item rest.length rest
    (a :: more, rest)

/-- Items with commas between them, or nothing. -/
def optionalItems {α : Type} (item : Reader α) (cs : List Char) : List α × List Char :=
  (items item cs).getD ([], cs)

end Dlx.Source
