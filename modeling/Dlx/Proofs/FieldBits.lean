import Dlx.Proofs.Fields

/-!
# The bits of a byte string

Every field starts at the lowest bit of its first byte, so in a byte string, read bit by bit from the
lowest bit of the first byte on, a field at `offset` is the stretch of its width from bit
`8 * offset` on. Writes are compared bit by bit here, since a patch writes back the bits around its
field.

Results:
* `bitAt_leBytes`: the bits of a number that was written are those of the number.
* `bitAt_writeAll`: a bit that no write touches is as it was.
* `RelocType.bitAt_new_write`: a patch gives its field the part of the value that the field holds,
  and leaves the other bits; so it touches its field only (`RelocType.field_of_touches`).
-/
namespace Dlx

/-- The bit with index `n`, counted from the lowest bit of the first byte. Behind the end all bits are
zero. -/
def bitAt (bs : Bytes) (n : Nat) : Bool := (bs[n / 8]?.getD 0).toNat.testBit (n % 8)

/-- A bit is one of its byte. -/
theorem bitAt_congr {bs bs' : Bytes} {n m : Nat} (hbyte : bs[n / 8]? = bs'[m / 8]?)
    (hbit : n % 8 = m % 8) : bitAt bs n = bitAt bs' m := by
  rw [bitAt, bitAt, hbyte, hbit]

theorem bitAt_leBytes {k n : Nat} (h : n < 8 * k) (v : Nat) :
    bitAt (leBytes k v) n = v.testBit n := by
  induction k generalizing v n with
  | zero => omega
  | succ k ih =>
    by_cases h8 : n < 8
    · have hbyte : n / 8 = 0 := by omega
      have hbit : n % 8 = n := by omega
      rw [bitAt, hbyte, hbit, leBytes, List.getElem?_cons_zero, Option.getD_some,
        UInt8.toNat_ofNat', Nat.testBit_mod_two_pow]
      simp [h8]
    · have hbyte : n / 8 = (n - 8) / 8 + 1 := by omega
      have hrest : bitAt (leBytes (k + 1) v) n = bitAt (leBytes k (v / 256)) (n - 8) := by
        refine bitAt_congr ?_ (by omega)
        rw [leBytes, hbyte, List.getElem?_cons_succ]
      rw [hrest, ih (by omega), show 256 = 2 ^ 8 from rfl, Nat.testBit_div_two_pow]
      congr 1
      omega

theorem bitAt_replicate_zero (k n : Nat) : bitAt (List.replicate k 0) n = false := by
  rw [bitAt, List.getElem?_replicate]
  split <;> simp

theorem bitAt_append_left {xs : Bytes} {n : Nat} (h : n < 8 * xs.length) (ys : Bytes) :
    bitAt (xs ++ ys) n = bitAt xs n :=
  bitAt_congr (List.getElem?_append_left (by omega)) rfl

theorem bitAt_append_right (xs ys : Bytes) (n : Nat) :
    bitAt (xs ++ ys) (8 * xs.length + n) = bitAt ys n := by
  refine bitAt_congr ?_ (by omega)
  rw [List.getElem?_append_right (by omega)]
  congr 1
  omega

theorem bitAt_slice {bs out : Bytes} {off len n : Nat} (h : slice? bs off len = some out)
    (hn : n < 8 * len) : bitAt bs (8 * off + n) = bitAt out n := by
  obtain ⟨-, rfl⟩ := slice?_eq_some_iff.mp h
  refine bitAt_congr ?_ (by omega)
  rw [getElem?_slice, if_pos (by omega)]
  congr 1
  omega

theorem bitAt_splice {bs patch : Bytes} {off : Nat} (h : off + patch.length ≤ bs.length) (n : Nat) :
    bitAt (splice bs off patch) n =
      if 8 * off ≤ n ∧ n < 8 * (off + patch.length) then bitAt patch (n - 8 * off)
      else bitAt bs n := by
  split
  · refine bitAt_congr ?_ (by omega)
    rw [getElem?_splice h, if_pos (by omega)]
    congr 1
    omega
  · refine bitAt_congr ?_ rfl
    rw [getElem?_splice h, if_neg (by omega)]

/-! ## Writes -/

/-- The write changes the bit with index `n` of some data. -/
def Write.Touches (w : Write) (n : Nat) : Prop :=
  ∃ old m, old.length = w.size ∧ m < 8 * w.size ∧ n = 8 * w.offset + m ∧
    bitAt (w.new old) m ≠ bitAt old m

theorem Write.bitAt_apply {w : Write} {data : Bytes} (h : w.Within data.length) {n : Nat}
    (hn : ¬ w.Touches n) : bitAt (w.apply data) n = bitAt data n := by
  have hlen := length_new_slice h
  have hplace := slice?_place h
  unfold Within at h
  rw [apply, bitAt_splice (by omega), hlen]
  split
  · next hin =>
    have hat : n = 8 * w.offset + (n - 8 * w.offset) := by omega
    have hold : bitAt data n = bitAt ((data.drop w.offset).take w.size) (n - 8 * w.offset) := by
      rw [hat, bitAt_slice hplace (by omega), ← hat]
    rw [hold]
    refine Decidable.byContradiction fun hne => ?_
    exact hn ⟨_, n - 8 * w.offset, length_of_slice? hplace, by omega, hat, hne⟩
  · rfl

theorem bitAt_writeAll {data : Bytes} {ws : List Write} (hw : ∀ w ∈ ws, w.Within data.length)
    {n : Nat} (hn : ∀ w ∈ ws, ¬ w.Touches n) : bitAt (writeAll data ws) n = bitAt data n := by
  induction ws generalizing data with
  | nil => rfl
  | cons w ws ih =>
    obtain ⟨hin, hrest⟩ := List.forall_mem_cons.mp hw
    obtain ⟨hkept, hkepts⟩ := List.forall_mem_cons.mp hn
    rw [writeAll_cons, ih (by rwa [Write.length_apply hin]) hkepts, Write.bitAt_apply hin hkept]

/-! ## Fields -/

theorem bitAt_wordBytes {n : Nat} (h : n < 32) (w : UInt32) :
    bitAt (wordBytes w) n = w.toNat.testBit n :=
  bitAt_leBytes (by omega) _

/-- A word with a field replaced, bit by bit. -/
theorem FieldRule.testBit_mergeWord {rule : FieldRule} (h0 : rule.bitOffset = 0)
    (hw : rule.bitWidth ≤ 32) (word field : UInt32) (n : Nat) :
    (rule.mergeWord word field).toNat.testBit n =
      if n < rule.bitWidth then field.toNat.testBit n else word.toNat.testBit n := by
  have hlt : field.toNat % 2 ^ rule.bitWidth < 2 ^ rule.bitWidth := Nat.mod_lt _ (capacity_pos _)
  have hcap : capacity rule.bitWidth = 2 ^ rule.bitWidth := rfl
  rw [toNat_mergeWord h0 hw, hcap, Nat.mul_comm, Nat.testBit_two_pow_mul_add _ hlt]
  split
  · next hn => simp [Nat.testBit_mod_two_pow, hn]
  · next hn =>
    rw [Nat.testBit_div_two_pow, Nat.sub_add_cancel (by omega)]

namespace RelocType

/-- In a field all bits of the selected part are kept. -/
theorem testBit_fieldBits (ty : RelocType) (v : UInt64) {n : Nat} (hn : n < ty.rule.bitWidth) :
    (ty.fieldBits v).toNat.testBit n = (ty.rule.part.select v).toNat.testBit n := by
  have hwidth : ty.rule.bitWidth ≤ 64 := by cases ty <;> decide
  have hcap : capacity ty.rule.bitWidth = 2 ^ ty.rule.bitWidth := rfl
  rw [fieldBits, hcap, UInt64.toNat_ofNat', Nat.testBit_mod_two_pow, Nat.testBit_mod_two_pow]
  simp [hn, show n < 64 by omega]

theorem bitAt_new_write {ty : RelocType} (hty : ty ≠ .none) {old : Bytes}
    (hold : old.length = ty.rule.size) (offset : Nat) (v : UInt64) {n : Nat}
    (hn : n < 8 * ty.rule.size) :
    bitAt ((ty.write offset v).new old) n =
      if n < ty.rule.bitWidth then (ty.rule.part.select v).toNat.testBit n else bitAt old n := by
  by_cases hdata : ty = .abs32 ∨ ty = .abs64
  · -- data is overwritten, and its field is all of it
    have hwidth : n < ty.rule.bitWidth := by
      rcases hdata with rfl | rfl <;> exact hn
    rw [if_pos hwidth, ← testBit_fieldBits ty v hwidth]
    rcases hdata with rfl | rfl <;> exact bitAt_leBytes hn _
  · have hrule : ty.rule.size = 4 ∧ ty.rule.bitOffset = 0 ∧ ty.rule.bitWidth ≤ 32 := by
      cases ty <;> simp_all [rule, FieldRule.inWord]
    obtain ⟨hsize, h0, hwidth⟩ := hrule
    have hword := wordBytes_bytesWord (hold.trans hsize)
    have hmem : ty ∉ [.none, .abs32, .abs64] := by simp_all
    rw [← hword, new_write_wordBytes hmem, bitAt_wordBytes (by omega), bitAt_wordBytes (by omega),
      FieldRule.testBit_mergeWord h0 hwidth]
    split
    · next hfield =>
      rw [UInt64.toNat_toUInt32, Nat.testBit_mod_two_pow, testBit_fieldBits ty v hfield]
      simp [show n < 32 by omega]
    · rfl

theorem field_of_touches {ty : RelocType} {offset n : Nat} {v : UInt64}
    (h : (ty.write offset v).Touches n) :
    8 * offset ≤ n ∧ n < 8 * offset + ty.rule.bitWidth := by
  obtain ⟨old, m, hold, hm, hn, hne⟩ := h
  change old.length = ty.rule.size at hold
  change m < 8 * ty.rule.size at hm
  change n = 8 * offset + m at hn
  have hty : ty ≠ .none := by
    rintro rfl
    simp [rule] at hm
  rw [bitAt_new_write hty hold offset v hm] at hne
  split at hne
  · omega
  · exact absurd rfl hne

end RelocType

end Dlx
