/-!
# Widths in bits

Fields, words and files bound their numbers by a width in bits; `capacity` is how many numbers a
width holds.
-/
namespace Dlx

/-- How many numbers `bits` bits can hold. -/
def capacity (bits : Nat) : Nat := Nat.pow 2 bits

theorem capacity_pos (bits : Nat) : 0 < capacity bits := Nat.pow_pos (by decide)

theorem capacity_add (a b : Nat) : capacity (a + b) = capacity a * capacity b :=
  Nat.pow_add 2 a b

end Dlx
