import Dlx.Proofs.Outcome
import Dlx.Proofs.Write
import Dlx.Relocation

/-!
# Patching fields

A patch reads the bytes at a place, replaces the field in them and writes them back. It fails when
its type has no field, when the place does not lie in the data, or when the value does not fit.

Results:
* `RelocType.accepts_iff_fits`: the range check of a field, as an interval of values.
* `RelocType.patch_eq_ok_iff`: a patch that succeeds is a write, and exactly the three conditions
  above stand in its way.
* `RelocType.outOfRange_of_patch`: a patch of a field in the data fails only for its value.
-/
namespace Dlx

/-! ## Values and ranges -/

theorem toNat_toUInt64_cast (v : Int64) : (v.toUInt64.toNat : Int) = v.toInt % 0x10000000000000000 := by
  have h := v.toBitVec.toInt_eq_toNat_bmod
  have hv := v.toUInt64.toNat_lt
  change v.toInt = Int.bmod v.toUInt64.toNat (2 ^ 64) at h
  rw [Int.bmod_def] at h
  split at h <;> omega

theorem toInt_shiftRight_two (v : Int64) : (v >>> 2).toInt = v.toInt / 4 := by
  rw [Int64.toInt, Int64.toBitVec_shiftRight]
  simp [Int.shiftRight_eq_div_pow]

/-- The values that a field takes: distances and addresses that its words can count. -/
def RelocType.Fits (ty : RelocType) (value : Int) : Prop :=
  match ty with
  | .pc16 => -0x20000 ≤ value ∧ value < 0x20000
  | .pc26 => -0x8000000 ≤ value ∧ value < 0x8000000
  | .abs26 => 0 ≤ value ∧ value < 0x10000000
  | _ => True

namespace RelocType

theorem accepts_iff_fits (ty : RelocType) (v : UInt64) :
    ty.rule.range.accepts ty.rule.bitWidth (ty.rule.part.select v) = true ↔
      ty.Fits v.toInt64.toInt := by
  have hs := toInt_shiftRight_two v.toInt64
  have hu := toNat_toUInt64_cast (v.toInt64 >>> 2)
  have hl := v.toInt64.toInt_lt
  have hg := v.toInt64.le_toInt
  have e15 : capacity 15 = 32768 := rfl
  have e25 : capacity 25 = 33554432 := rfl
  have e26 : capacity 26 = 67108864 := rfl
  cases ty <;>
    simp [rule, FieldRule.inWord, FieldRange.accepts, FieldPart.select, Fits, hs, e15, e25, e26] <;>
    omega

/-- The bits that a value puts into a field, whether or not it fits. -/
def fieldBits (ty : RelocType) (v : UInt64) : UInt64 :=
  UInt64.ofNat ((ty.rule.part.select v).toNat % capacity ty.rule.bitWidth)

theorem fieldValue_eq_ok_iff {ty : RelocType} {v field : UInt64} :
    ty.rule.fieldValue v = .ok field ↔ ty.Fits v.toInt64.toInt ∧ ty.fieldBits v = field := by
  rw [← accepts_iff_fits]
  unfold FieldRule.fieldValue fieldBits
  dsimp only
  split
  · next h => simp [h]
  · next h => simp [h]

theorem fieldValue_isOk_iff (ty : RelocType) (v : UInt64) :
    (∃ field, ty.rule.fieldValue v = .ok field) ↔ ty.Fits v.toInt64.toInt := by
  simp [fieldValue_eq_ok_iff]

/-! ## Patches as writes -/

theorem size_eq_zero_iff (ty : RelocType) : ty.rule.size = 0 ↔ ty = .none := by
  cases ty <;> simp [rule, FieldRule.inWord]

theorem length_fieldBytes {ty : RelocType} (h : ty ≠ .none) (old : Bytes) (field : UInt64) :
    (ty.rule.fieldBytes old field).length = ty.rule.size := by
  cases ty <;>
    simp_all [rule, FieldRule.inWord, FieldRule.fieldBytes, wordBytes, length_leBytes]

/-- The write that gives the field at `offset` a value. -/
def write (ty : RelocType) (offset : Nat) (v : UInt64) : Write where
  offset := offset
  size := ty.rule.size
  new old := if ty = .none then old else ty.rule.fieldBytes old (ty.fieldBits v)
  length_new old h := by
    split
    · exact h
    · next hne => exact length_fieldBytes hne old _

/-- In an instruction word only the field is replaced. -/
theorem new_write_wordBytes {ty : RelocType} (hty : ty ∉ [.none, .abs32, .abs64]) (offset : Nat)
    (v : UInt64) (word : UInt32) :
    (ty.write offset v).new (wordBytes word) =
      wordBytes (ty.rule.mergeWord word (ty.fieldBits v).toUInt32) := by
  cases ty <;>
    simp_all [write, FieldRule.fieldBytes, rule, FieldRule.inWord, bytesWord_wordBytes]

theorem patch_eq_ok_iff {ty : RelocType} {data out : Bytes} {offset : Nat} {v : UInt64} :
    ty.rule.patch data offset v = .ok out ↔ ty ≠ .none ∧ ty.Fits v.toInt64.toInt ∧
      (ty.write offset v).Within data.length ∧ (ty.write offset v).apply data = out := by
  unfold FieldRule.patch
  by_cases h0 : ty = .none
  · simp [h0, rule]
  · have hs : ty.rule.size ≠ 0 := fun h => h0 ((size_eq_zero_iff ty).mp h)
    rw [if_neg hs]
    by_cases hb : offset + ty.rule.size ≤ data.length
    · simp only [slice?, if_pos hb, Except.bind_eq_ok_iff, fieldValue_eq_ok_iff,
        length_fieldBytes h0, if_true]
      constructor
      · rintro ⟨_, ⟨hf, rfl⟩, h⟩
        exact ⟨h0, hf, hb, by simpa [write, Write.apply, h0, pure, Except.pure] using h⟩
      · rintro ⟨-, hf, -, h⟩
        exact ⟨_, ⟨hf, rfl⟩, by simpa [write, Write.apply, h0, pure, Except.pure] using h⟩
    · simp only [slice?, if_neg hb]
      constructor
      · intro h; cases h
      · rintro ⟨-, -, h, -⟩; exact absurd h hb

theorem outOfRange_of_patch {ty : RelocType} (hne : ty ≠ .none) {data : Bytes} {offset : Nat}
    (hin : offset + ty.rule.size ≤ data.length) {v : UInt64} {e : PatchError}
    (h : ty.rule.patch data offset v = .error e) : e = .outOfRange ty.rule.type v.toInt64 := by
  have hs : ty.rule.size ≠ 0 := fun h => hne ((size_eq_zero_iff ty).mp h)
  unfold FieldRule.patch at h
  rw [if_neg hs] at h
  simp only [slice?, if_pos hin, length_fieldBytes hne, if_true] at h
  rcases Except.bind_eq_error_iff.mp h with h | ⟨field, -, h⟩
  · simp only [FieldRule.fieldValue] at h
    split at h
    · cases h
    · exact (Except.error.inj h).symm
  · cases h

end RelocType

end Dlx
