import Dlx.Bytes
import Dlx.Decoding

/-!
# Listings of code

A listing has a line per word: offset, word and instruction. A word that is no instruction is listed
as `.word`, and bytes left over at the end as `.byte`.
-/
namespace Dlx

/-- The text of a word: its instruction, or the word as data. -/
def wordText (word : UInt32) : String :=
  match decode word with
  | .ok i => i.text
  | .error _ => ".word 0x" ++ Text.hex 8 word.toNat

/-- The instruction at the start of a byte string. -/
def decodeBytes (bs : Bytes) : Except DecodeError Inst :=
  match slice? bs 0 4 with
  | some word => decode (bytesWord word)
  | none => .error (.tooShort bs.length)

def wordLine (offset : Nat) (word : UInt32) : String :=
  Text.hex 4 offset ++ ": " ++ Text.hex 8 word.toNat ++ "  " ++ wordText word ++ "\n"

def byteLine (offset : Nat) (byte : UInt8) : String :=
  Text.hex 4 offset ++ ": " ++ Text.hex 2 byte.toNat ++ "        .byte 0x" ++
    Text.hex 2 byte.toNat ++ "\n"

/-- The listing of code that starts at `offset`. -/
def listingFrom (offset : Nat) : Bytes → String
  | a :: b :: c :: d :: rest =>
    wordLine offset (bytesWord [a, b, c, d]) ++ listingFrom (offset + 4) rest
  | [a, b, c] => byteLine offset a ++ byteLine (offset + 1) b ++ byteLine (offset + 2) c
  | [a, b] => byteLine offset a ++ byteLine (offset + 1) b
  | [a] => byteLine offset a
  | [] => ""

def listing (code : Bytes) : String := listingFrom 0 code

end Dlx
