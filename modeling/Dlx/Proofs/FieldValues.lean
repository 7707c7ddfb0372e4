import Dlx.Link.Plan
import Dlx.Proofs.Fields

/-!
# What a patched field holds

The bytes at the place of a patch spell a number. Its low part is the field and its high part belongs
to the instruction around it. The tables here say how long both are and what a field stands for,
without the rules that the patch goes by.

Results:
* `RelocType.leNat_new_write`: a patch replaces the low part of the number and keeps the high part.
* `RelocType.holds_select`: a field that takes a value holds it.
* `RelocType.patch_fills_field`: when a patch succeeds, what it has written then, and that it has
  written nothing otherwise.
-/
namespace Dlx

/-! ## Numbers in bytes -/

/-- The number that the `size` bytes from `offset` on spell, if they are all there. -/
def numberAt? (bs : Bytes) (offset size : Nat) : Option Nat := (slice? bs offset size).map leNat

theorem leNat_wordBytes (w : UInt32) : leNat (wordBytes w) = w.toNat := by
  rw [wordBytes, leNat_leBytes]
  exact Nat.mod_eq_of_lt w.toNat_lt

/-- A write is not seen in the bytes outside its place. -/
theorem Write.getElem?_apply_of_outside {w : Write} {data : Bytes} (h : w.Within data.length)
    {j : Nat} (hj : j < w.offset ∨ w.offset + w.size ≤ j) : (w.apply data)[j]? = data[j]? := by
  have hlen := length_new_slice h
  unfold Within at h
  rw [apply, getElem?_splice (by omega), hlen, if_neg (by omega)]

namespace RelocType

/-! ## Fields -/

/-- How many bytes the field of a type is in. -/
def byteCount : RelocType → Nat
  | none => 0
  | abs64 => 8
  | _ => 4

/-- How many bits of these, from the lowest on, are the field. -/
def bitCount : RelocType → Nat
  | none => 0
  | abs32 => 32
  | abs64 => 64
  | lo16 | hi16 | pc16 => 16
  | pc26 | abs26 => 26

/-- The field, read as a number, stands for a value: for its low bits, for one of its halves, or, as
a number of words, for the multiple of four below it. Distances are signed. -/
def Holds (ty : RelocType) (v : UInt64) (field : Nat) : Prop :=
  let signed := v.toInt64.toInt
  match ty with
  | none => False
  | abs32 => field = v.toNat % 0x100000000
  | abs64 => field = v.toNat
  | lo16 => field = v.toNat % 0x10000
  | hi16 => field = (v.toNat + 0x8000) / 0x10000 % 0x10000
  | pc16 => Int.bmod field 0x10000 * 4 = signed - signed % 4
  | pc26 => Int.bmod field 0x4000000 * 4 = signed - signed % 4
  | abs26 => (field : Int) * 4 = signed - signed % 4

theorem size_rule (ty : RelocType) : ty.rule.size = ty.byteCount := by cases ty <;> rfl

theorem bitWidth_rule (ty : RelocType) : ty.rule.bitWidth = ty.bitCount := by cases ty <;> rfl

theorem toNat_fieldBits_eq (ty : RelocType) (v : UInt64) :
    (ty.fieldBits v).toNat = (ty.rule.part.select v).toNat % capacity ty.bitCount := by
  have hle : (ty.rule.part.select v).toNat % capacity ty.bitCount ≤ _ := Nat.mod_le _ _
  rw [fieldBits, bitWidth_rule, UInt64.toNat_ofNat']
  exact Nat.mod_eq_of_lt (Nat.lt_of_le_of_lt hle (UInt64.toNat_lt _))

theorem leNat_new_write {ty : RelocType} (hty : ty ≠ .none) {old : Bytes}
    (hold : old.length = ty.byteCount) (offset : Nat) (v : UInt64) :
    leNat ((ty.write offset v).new old) = leNat old / capacity ty.bitCount * capacity ty.bitCount +
      (ty.rule.part.select v).toNat % capacity ty.bitCount := by
  by_cases hdata : ty = .abs32 ∨ ty = .abs64
  · -- the field is all of the number, which is written anew
    have hbits : ty.bitCount = 8 * ty.byteCount := by rcases hdata with rfl | rfl <;> rfl
    have hnew : (ty.write offset v).new old = leBytes ty.byteCount (ty.fieldBits v).toNat := by
      rcases hdata with rfl | rfl <;> rfl
    have hsmall : leNat old / capacity ty.bitCount = 0 := by
      rw [hbits, ← hold]
      exact Nat.div_eq_of_lt (leNat_lt old)
    rw [hnew, leNat_leBytes, ← hbits, toNat_fieldBits_eq, Nat.mod_mod, hsmall]
    omega
  · have hmem : ty ∉ [.none, .abs32, .abs64] := by simp_all
    have hword : ty.byteCount = 4 ∧ ty.rule.bitOffset = 0 ∧ ty.rule.bitWidth ≤ 32 := by
      cases ty <;> simp_all [byteCount, rule, FieldRule.inWord]
    obtain ⟨hcount, hoffset, hwidth⟩ := hword
    have hdvd : capacity ty.bitCount ∣ 2 ^ 32 := Nat.pow_dvd_pow 2 (bitWidth_rule ty ▸ hwidth)
    rw [hcount] at hold
    rw [← wordBytes_bytesWord hold, new_write_wordBytes hmem, leNat_wordBytes, leNat_wordBytes,
      FieldRule.toNat_mergeWord hoffset hwidth, bitWidth_rule, UInt64.toNat_toUInt32,
      toNat_fieldBits_eq, Nat.mod_mod_of_dvd _ hdvd, Nat.mod_mod]

/-! ## Values -/

theorem toNat_select_low (v : UInt64) : (FieldPart.select .low v).toNat = v.toNat % 0x10000 := by
  simp only [FieldPart.select, UInt16.toNat_toUInt64, toNat_lowHalf, UInt64.toNat_toUInt32]
  omega

theorem toNat_select_high (v : UInt64) :
    (FieldPart.select .high v).toNat = (v.toNat + 0x8000) / 0x10000 % 0x10000 := by
  simp only [FieldPart.select, UInt16.toNat_toUInt64, toNat_highHalf, UInt64.toNat_toUInt32]
  omega

/-- The number of words in a value, counted down and with 64 bits. -/
theorem toNat_select_words (v : UInt64) :
    ((FieldPart.select .words v).toNat : Int) = v.toInt64.toInt / 4 % 0x10000000000000000 := by
  rw [FieldPart.select, toNat_toUInt64_cast, toInt_shiftRight_two]

theorem holds_select {ty : RelocType} (hty : ty ≠ .none) {v : UInt64}
    (hfits : ty.Fits v.toInt64.toInt) :
    ty.Holds v ((ty.rule.part.select v).toNat % capacity ty.bitCount) := by
  have hv := v.toNat_lt
  have hwords := toNat_select_words v
  cases ty with
  | none => exact absurd rfl hty
  | abs32 => rfl
  | abs64 => exact Nat.mod_eq_of_lt hv
  | lo16 =>
    change (FieldPart.select .low v).toNat % 0x10000 = _
    rw [toNat_select_low, Nat.mod_mod]
  | hi16 =>
    change (FieldPart.select .high v).toNat % 0x10000 = _
    rw [toNat_select_high, Nat.mod_mod]
  | pc16 =>
    change Int.bmod ((FieldPart.select .words v).toNat % 0x10000 : Nat) 0x10000 * 4 = _
    simp only [Fits, Int.bmod_def] at hfits ⊢
    split <;> omega
  | pc26 =>
    change Int.bmod ((FieldPart.select .words v).toNat % 0x4000000 : Nat) 0x4000000 * 4 = _
    simp only [Fits, Int.bmod_def] at hfits ⊢
    split <;> omega
  | abs26 =>
    change (((FieldPart.select .words v).toNat % 0x4000000 : Nat) : Int) * 4 = _
    simp only [Fits] at hfits ⊢
    omega

/-! ## Patches -/

/-- A buffer after a patch, against the buffer before it. -/
structure Filled (ty : RelocType) (offset : Nat) (v : UInt64) (data out : Bytes) : Prop where
  length : out.length = data.length
  outside : ∀ j, j < offset ∨ offset + ty.byteCount ≤ j → out[j]? = data[j]?
  /-- The bits above the field are as they were, and the field holds the value. -/
  number : ∃ old new, numberAt? data offset ty.byteCount = some old ∧
    numberAt? out offset ty.byteCount = some new ∧
    new / capacity ty.bitCount = old / capacity ty.bitCount ∧
    ty.Holds v (new % capacity ty.bitCount)

theorem filled_of_patch {ty : RelocType} {data out : Bytes} {offset : Nat} {v : UInt64}
    (h : ty.rule.patch data offset v = .ok out) : ty.Filled offset v data out := by
  obtain ⟨hty, hfits, hwithin, rfl⟩ := patch_eq_ok_iff.mp h
  have hsize : (ty.write offset v).size = ty.byteCount := size_rule ty
  have hold := Write.slice?_place hwithin
  have hnew := Write.slice?_apply_self hwithin
  rw [hsize] at hold hnew
  have hnumber := leNat_new_write hty (length_of_slice? hold) offset v
  have hlt : (ty.rule.part.select v).toNat % capacity ty.bitCount < capacity ty.bitCount :=
    Nat.mod_lt _ (capacity_pos _)
  refine ⟨Write.length_apply hwithin, fun j hj => ?_, _, _, congrArg (Option.map leNat) hold,
    congrArg (Option.map leNat) hnew, ?_, ?_⟩
  · exact Write.getElem?_apply_of_outside hwithin (by rwa [hsize])
  · rw [hnumber, Nat.mul_comm, Nat.mul_add_div (capacity_pos _), Nat.div_eq_of_lt hlt, Nat.add_zero]
  · rw [hnumber, Nat.mul_comm, Nat.mul_add_mod, Nat.mod_eq_of_lt hlt]
    exact holds_select hty hfits

/-- A patch succeeds exactly if its type has a field, the field lies in the buffer and the value is in
its range. Then the field holds the value and all else is as it was; otherwise the buffer is. -/
theorem patch_fills_field (ty : RelocType) (data : Bytes) (offset : Nat) (v : UInt64) :
    ((∃ out, ty.rule.patch data offset v = .ok out) ↔
      ty ≠ .none ∧ offset + ty.byteCount ≤ data.length ∧ ty.Fits v.toInt64.toInt) ∧
    (∀ out, ty.rule.patch data offset v = .ok out →
      ty.Filled offset v data out ∧ writePatches data [⟨offset, ty, v⟩] = (out, Option.none)) ∧
    ∀ e, ty.rule.patch data offset v = .error e →
      writePatches data [⟨offset, ty, v⟩] = (data, some (.patch e)) := by
  refine ⟨?_, ?_, ?_⟩
  · simp only [patch_eq_ok_iff, Write.Within, write, size_rule]
    constructor
    · rintro ⟨out, hty, hfits, hin, -⟩
      exact ⟨hty, hin, hfits⟩
    · rintro ⟨hty, hin, hfits⟩
      exact ⟨_, hty, hfits, hin, rfl⟩
  · intro out h
    refine ⟨filled_of_patch h, ?_⟩
    simp only [writePatches, Patch.apply, h, Except.mapError_ok]
  · intro e h
    simp only [writePatches, Patch.apply, h, Except.mapError_error]

/-- The branch that reaches back farthest, at an odd place and not to a whole word; one step farther
back is refused. -/
theorem patch_fills_field_farthestBranch :
    pc16.rule.patch [9, 1, 2, 0x20, 0x10, 9] 1 0xfffffffffffe0003 =
      .ok [9, 0x00, 0x80, 0x20, 0x10, 9] ∧
    pc16.Filled 1 0xfffffffffffe0003 [9, 1, 2, 0x20, 0x10, 9] [9, 0x00, 0x80, 0x20, 0x10, 9] ∧
    ¬ ∃ out, pc16.rule.patch [9, 1, 2, 0x20, 0x10, 9] 1 0xfffffffffffdffff = .ok out := by
  have hpatch : pc16.rule.patch [9, 1, 2, 0x20, 0x10, 9] 1 0xfffffffffffe0003 =
      .ok [9, 0x00, 0x80, 0x20, 0x10, 9] := rfl
  refine ⟨hpatch, ((patch_fills_field pc16 _ _ _).2.1 _ hpatch).1, ?_⟩
  intro hout
  have hfits := ((patch_fills_field pc16 _ _ _).1.mp hout).2.2
  exact absurd hfits.1 (by decide)

end RelocType

end Dlx
