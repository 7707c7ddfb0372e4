import Dlx.Bytes
import Dlx.NameMap

/-!
# Linked images

An image is what is loaded at its base address: all code, then all data, with every relocation
applied.
-/
namespace Dlx

structure Image where
  base : UInt32
  entry : UInt32
  /-- How many of the bytes, from the first on, are code. -/
  textSize : UInt32
  bytes : Bytes
  /-- The addresses of the global symbols. -/
  symbols : NameMap UInt32

/-- The word at an address, if the image holds all of it. -/
def Image.word? (i : Image) (address : UInt32) : Option UInt32 :=
  if address < i.base then none
  else (slice? i.bytes (address.toNat - i.base.toNat) 4).map bytesWord

end Dlx
