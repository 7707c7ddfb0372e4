/-!
# Numerals

Numbers are printed in decimal, with a sign where they are negative (or always, for addends in a
listing), and in hexadecimal with a least width. They are read as digits of a base with at most one
`+` in front.
-/
namespace Dlx.Text

/-- Decimal digits. -/
def decimal (n : Nat) : String := String.ofList (Nat.toDigits 10 n)

/-- Decimal with a minus sign for negative numbers. -/
def signed (v : Int) : String :=
  match v with
  | .ofNat n => decimal n
  | .negSucc n => "-" ++ decimal (n + 1)

/-- Decimal with a sign in every case. -/
def explicitSigned (v : Int) : String :=
  match v with
  | .ofNat n => "+" ++ decimal n
  | .negSucc n => "-" ++ decimal (n + 1)

/-- Lower-case hexadecimal, filled with zeros up to `width` digits. -/
def hex (width n : Nat) : String := String.ofList ((Nat.toDigits 16 n).leftpad width '0')

/-- Upper-case hexadecimal. -/
def upperHex (n : Nat) : String := String.ofList ((Nat.toDigits 16 n).map Char.toUpper)

/-- The value of a digit, a letter counting from ten in either case. -/
def digitValue? (base : Nat) (c : Char) : Option Nat :=
  let v :=
    if '0' ≤ c ∧ c ≤ '9' then some (c.toNat - '0'.toNat)
    else if 'a' ≤ c ∧ c ≤ 'z' then some (c.toNat - 'a'.toNat + 10)
    else if 'A' ≤ c ∧ c ≤ 'Z' then some (c.toNat - 'A'.toNat + 10)
    else none
  v.filter (· < base)

/-- Extends the value read so far by the digits that follow; anything but digits is refused. -/
def readDigits? (base : Nat) (value : Nat) : List Char → Option Nat
  | [] => some value
  | c :: rest => (digitValue? base c).bind fun d => readDigits? base (base * value + d) rest

/-- Reads one or more digits. -/
def readNat? (base : Nat) : List Char → Option Nat
  | [] => none
  | c :: rest => readDigits? base 0 (c :: rest)

/-- Reads a number up to `max`, which may have one plus sign in front. -/
def readUpTo? (base max : Nat) (cs : List Char) : Option Nat :=
  let digits := match cs with
    | '+' :: rest => rest
    | _ => cs
  (readNat? base digits).filter (· ≤ max)

end Dlx.Text
