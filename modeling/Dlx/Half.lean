/-!
# Halves of an address

An address is built from two 16-bit immediates: the high half is shifted up and the low half is
added with its sign. The high half is therefore rounded, so that the sum is the address again.

Results:
* `join_halves`: the two halves of any word join to that word.
-/
namespace Dlx

/-- The low half of a word. -/
def lowHalf (v : UInt32) : UInt16 := v.toUInt16

/-- The high half of a word, one more when the low half counts as negative. -/
def highHalf (v : UInt32) : UInt16 := ((v + 0x8000) >>> 16).toUInt16

/-- A half read as a signed number. -/
def signedHalf (h : UInt16) : Int := Int.bmod h.toNat 0x10000

theorem toNat_lowHalf (v : UInt32) : (lowHalf v).toNat = v.toNat % 0x10000 := by
  simp [lowHalf]

theorem toNat_highHalf (v : UInt32) :
    (highHalf v).toNat = (v.toNat + 0x8000) % 0x100000000 / 0x10000 := by
  have h := v.toNat_lt
  simp [highHalf, UInt32.toNat_add, UInt32.toNat_shiftRight, Nat.shiftRight_eq_div_pow]
  omega

theorem join_halves_nat (n : Nat) (h : n < 0x100000000) :
    ((((n + 0x8000) % 0x100000000 / 0x10000 : Nat) : Int) * 0x10000 +
      Int.bmod ((n % 0x10000 : Nat) : Int) 0x10000) % 0x100000000 = (n : Int) := by
  rw [Int.bmod_def]
  split <;> omega

theorem join_halves (v : UInt32) :
    (((highHalf v).toNat : Int) * 0x10000 + signedHalf (lowHalf v)) % 0x100000000 =
      (v.toNat : Int) := by
  have hv := v.toNat_lt
  have h := join_halves_nat v.toNat (by omega)
  rw [← toNat_highHalf, ← toNat_lowHalf] at h
  exact h

end Dlx
