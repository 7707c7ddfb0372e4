import Dlx.Bits

/-!
# Byte strings

Object files, section contents and memory images are lists of bytes, and every number in them is
little-endian. `leBytes n v` writes the `n` low bytes of `v`; `leNat` reads a whole byte string
back.

Results:
* `length_leBytes`, `leNat_leBytes`: the writer emits `n` bytes and the reader gives back `v`, as
  far as `n` bytes hold it.
* `leBytes_leNat`: writing what was read gives the same bytes.
* `bytesWord_wordBytes`, `wordBytes_bytesWord`: words and their four bytes correspond.
-/
namespace Dlx

abbrev Bytes := List UInt8

/-- The `n` low bytes of `v`, least significant first. -/
def leBytes : Nat → Nat → Bytes
  | 0, _ => []
  | n + 1, v => UInt8.ofNat v :: leBytes n (v / 256)

/-- The number a byte string spells, least significant byte first. -/
def leNat : Bytes → Nat
  | [] => 0
  | b :: rest => b.toNat + 256 * leNat rest

theorem length_leBytes (n v : Nat) : (leBytes n v).length = n := by
  induction n generalizing v with
  | zero => rfl
  | succ n ih => simp [leBytes, ih]

theorem leNat_leBytes (n v : Nat) : leNat (leBytes n v) = v % capacity (8 * n) := by
  induction n generalizing v with
  | zero => exact (Nat.mod_one v).symm
  | succ n ih =>
    have hb : (UInt8.ofNat v).toNat = v % 256 := UInt8.toNat_ofNat'
    have hc : capacity (8 * (n + 1)) = 256 * capacity (8 * n) := by
      rw [Nat.mul_succ, Nat.add_comm, capacity_add]; rfl
    rw [leBytes, leNat, ih, hb, hc, Nat.mod_mul]

theorem leBytes_leNat (bs : Bytes) : leBytes bs.length (leNat bs) = bs := by
  induction bs with
  | nil => rfl
  | cons b rest ih =>
    have hb := b.toNat_lt
    rw [List.length_cons, leBytes, leNat, Nat.add_mul_div_left _ _ (by decide),
      Nat.div_eq_of_lt (by simpa using hb), Nat.zero_add, ih]
    congr 1
    apply UInt8.toNat_inj.mp
    rw [UInt8.toNat_ofNat']
    omega

theorem leBytes_mod (n v : Nat) : leBytes n (v % capacity (8 * n)) = leBytes n v := by
  have h := leBytes_leNat (leBytes n v)
  rwa [length_leBytes, leNat_leBytes] at h

/-- The four bytes of a word. -/
def wordBytes (w : UInt32) : Bytes := leBytes 4 w.toNat

/-- The word spelled by the first four of `bs`. -/
def bytesWord (bs : Bytes) : UInt32 := UInt32.ofNat (leNat (bs.take 4))

theorem leNat_lt (bs : Bytes) : leNat bs < capacity (8 * bs.length) := by
  have h := leNat_leBytes bs.length (leNat bs)
  rw [leBytes_leNat] at h
  rw [h]
  exact Nat.mod_lt _ (capacity_pos _)

theorem bytesWord_wordBytes (w : UInt32) : bytesWord (wordBytes w) = w := by
  have hlen : (wordBytes w).length = 4 := length_leBytes 4 w.toNat
  rw [bytesWord, List.take_of_length_le (Nat.le_of_eq hlen), wordBytes, leNat_leBytes]
  apply UInt32.toNat_inj.mp
  have hw := w.toNat_lt
  rw [UInt32.toNat_ofNat', show capacity (8 * 4) = 4294967296 from rfl]
  omega

theorem wordBytes_bytesWord {bs : Bytes} (h : bs.length = 4) : wordBytes (bytesWord bs) = bs := by
  have hlt := leNat_lt bs
  rw [h] at hlt
  rw [wordBytes, bytesWord, List.take_of_length_le (Nat.le_of_eq h), UInt32.toNat_ofNat',
    Nat.mod_eq_of_lt (show leNat bs < 4294967296 from hlt), ← h, leBytes_leNat]

/-! ## Cutting and patching -/

/-- The `len` bytes from `off` on, if the byte string holds them all. -/
def slice? (bs : Bytes) (off len : Nat) : Option Bytes :=
  if off + len ≤ bs.length then some ((bs.drop off).take len) else none

/-- Replaces the bytes from `off` on by `patch`. -/
def splice (bs : Bytes) (off : Nat) (patch : Bytes) : Bytes :=
  bs.take off ++ patch ++ bs.drop (off + patch.length)

/-- How many zero bytes bring a length to the next multiple of four. -/
def padding4 (len : Nat) : Nat := (4 - len % 4) % 4

/-- Zero bytes up to the next multiple of four. -/
def pad4 (bs : Bytes) : Bytes := bs ++ List.replicate (padding4 bs.length) 0

theorem length_splice {bs patch : Bytes} {off : Nat} (h : off + patch.length ≤ bs.length) :
    (splice bs off patch).length = bs.length := by
  simp only [splice, List.length_append, List.length_take, List.length_drop]
  omega

end Dlx
