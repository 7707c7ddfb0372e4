import Dlx.Bytes
import Dlx.Text.Numeral

/-!
# UTF-8

Names are stored in object files as UTF-8. `decodeUtf8` reads a byte string as characters or says
where it fails: at the start of the first sequence that is not well formed, with the number of bytes
that make it so, or at a sequence that the end of the bytes cuts short.
-/
namespace Dlx.Text

inductive Utf8Fault where
  /-- The `len` bytes at `index` start no character. -/
  | invalid (len index : Nat)
  /-- The bytes end within the character at `index`. -/
  | incomplete (index : Nat)
  deriving DecidableEq

def Utf8Fault.message : Utf8Fault → String
  | .invalid len index =>
    "invalid utf-8 sequence of " ++ decimal len ++ " bytes from index " ++ decimal index
  | .incomplete index => "incomplete utf-8 byte sequence from index " ++ decimal index

def encodeUtf8 (s : String) : Bytes := s.toList.flatMap String.utf8EncodeChar

/-- The bytes that may follow the first byte of a character. -/
def isContinuation (b : UInt8) : Bool := 0x80 ≤ b && b ≤ 0xbf

/-- The second bytes that a first byte allows in a sequence of three: no overlong form and no
surrogate. -/
def isSecondOfThree (a b : UInt8) : Bool :=
  if a = 0xe0 then 0xa0 ≤ b && b ≤ 0xbf
  else if a = 0xed then 0x80 ≤ b && b ≤ 0x9f
  else isContinuation b

/-- The second bytes that a first byte allows in a sequence of four: no overlong form and nothing
above the last code point. -/
def isSecondOfFour (a b : UInt8) : Bool :=
  if a = 0xf0 then 0x90 ≤ b && b ≤ 0xbf
  else if a = 0xf4 then 0x80 ≤ b && b ≤ 0x8f
  else isContinuation b

/-- The six bits that a continuation byte adds. -/
def sixBits (b : UInt8) : Nat := b.toNat % 64

/-- Decodes the bytes that stand at `index`. -/
def decodeUtf8From (index : Nat) : Bytes → Except Utf8Fault (List Char)
  | [] => .ok []
  | a :: rest =>
    if a < 0x80 then do return Char.ofNat a.toNat :: (← decodeUtf8From (index + 1) rest)
    else if 0xc2 ≤ a && a ≤ 0xdf then
      match rest with
      | [] => .error (.incomplete index)
      | b :: rest =>
        if !isContinuation b then .error (.invalid 1 index)
        else do
          let c := Char.ofNat (a.toNat % 32 * 64 + sixBits b)
          return c :: (← decodeUtf8From (index + 2) rest)
    else if 0xe0 ≤ a && a ≤ 0xef then
      match rest with
      | [] => .error (.incomplete index)
      | b :: rest =>
        if !isSecondOfThree a b then .error (.invalid 1 index)
        else
          match rest with
          | [] => .error (.incomplete index)
          | c :: rest =>
            if !isContinuation c then .error (.invalid 2 index)
            else do
              let ch := Char.ofNat (a.toNat % 16 * 4096 + sixBits b * 64 + sixBits c)
              return ch :: (← decodeUtf8From (index + 3) rest)
    else if 0xf0 ≤ a && a ≤ 0xf4 then
      match rest with
      | [] => .error (.incomplete index)
      | b :: rest =>
        if !isSecondOfFour a b then .error (.invalid 1 index)
        else
          match rest with
          | [] => .error (.incomplete index)
          | c :: rest =>
            if !isContinuation c then .error (.invalid 2 index)
            else
              match rest with
              | [] => .error (.incomplete index)
              | d :: rest =>
                if !isContinuation d then .error (.invalid 3 index)
                else do
                  let ch := Char.ofNat
                    (a.toNat % 8 * 262144 + sixBits b * 4096 + sixBits c * 64 + sixBits d)
                  return ch :: (← decodeUtf8From (index + 4) rest)
    else .error (.invalid 1 index)

def decodeUtf8 (bs : Bytes) : Except Utf8Fault String := do
  return String.ofList (← decodeUtf8From 0 bs)

end Dlx.Text
