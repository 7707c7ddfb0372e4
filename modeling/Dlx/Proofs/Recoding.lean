import Dlx.Proofs.Encoding
import Dlx.Proofs.Fields

/-!
# Encoding what was decoded

The decoder reads the opcode and the slots of its layout, and nothing else of a word. So an
instruction that was decoded is encoded with exactly these bits, and the bits that its layout leaves
out become zero.

Results:
* `Slot.insert_extract`: a field that is read and put back is the part of the word under its slot.
* `encode_of_decode`: a word that decodes to an instruction is the encoding of that instruction, up to
  the bits that are neither opcode nor operand.
-/
namespace Dlx

/-! ## The bits of a layout -/

/-- The bits of the opcode: the top six, and in format R the low eleven. -/
def Layout.opcodeMask (l : Layout) : UInt32 :=
  (lowMask 6 <<< 26) ||| if l.format = .r then lowMask 11 else 0

/-- The bits of the opcode and of the operands. -/
def Layout.usedMask (l : Layout) : UInt32 :=
  l.slots.foldl (fun mask slot => mask ||| slot.mask) l.opcodeMask

/-- The bits that a word of this opcode uses. -/
def Opcode.usedMask (op : Opcode) : UInt32 := (op.layout?.map Layout.usedMask).getD 0

/-- The word without the bits that its instruction does not use; a word that is no instruction stays
as it is. -/
def canonicalWord (word : UInt32) : UInt32 :=
  match decode word with
  | .ok i => word &&& i.opcode.usedMask
  | .error _ => word

/-- The width of a field. -/
def OperandClass.width : OperandClass → Nat
  | .reg => 5
  | .simm16 | .uimm16 | .branch => 16
  | .call | .jump => 26

theorem Opcode.slot_bounds {op : Opcode} {l : Layout} (h : op.layout? = some l) :
    ∀ s ∈ l.slots, s.shift + s.width ≤ 32 ∧ s.width = s.cls.width := by
  cases op <;> cases h <;> decide

/-! ## One field -/

theorem land_lor_left (a b c : UInt32) : a &&& (b ||| c) = (a &&& b) ||| (a &&& c) := by
  apply UInt32.toBitVec_inj.mp
  rw [UInt32.toBitVec_and, UInt32.toBitVec_or, UInt32.toBitVec_or, UInt32.toBitVec_and,
    UInt32.toBitVec_and, BitVec.and_or_distrib_left]

theorem testBit_lowMask {width : Nat} (h : width ≤ 32) (i : Nat) :
    (lowMask width).toNat.testBit i = decide (i < width) := by
  rw [toNat_lowMask h]
  exact Nat.testBit_two_pow_sub_one width i

theorem Slot.insert_extract {s : Slot} (h : s.shift + s.width ≤ 32) (hs : s.shift < 32)
    (w : UInt32) : s.insert (s.extract w) = w &&& s.mask := by
  have hshift : (UInt32.ofNat s.shift).toNat % 32 = s.shift := by
    rw [UInt32.toNat_ofNat']
    omega
  have hw := w.toNat_lt
  apply UInt32.toNat_inj.mp
  apply Nat.eq_of_testBit_eq
  intro i
  rw [insert, extract, mask, UInt32.toNat_shiftLeft, UInt32.toNat_and, UInt32.toNat_and,
    UInt32.toNat_and, UInt32.toNat_shiftLeft, UInt32.toNat_shiftRight, hshift,
    Nat.testBit_and, Nat.testBit_mod_two_pow, Nat.testBit_mod_two_pow, Nat.testBit_shiftLeft,
    Nat.testBit_shiftLeft, Nat.testBit_and, Nat.testBit_and, Nat.testBit_shiftRight,
    testBit_lowMask (by omega)]
  by_cases hi : s.shift ≤ i
  · rw [Nat.add_sub_cancel' hi]
    by_cases h32 : i < 32 <;> simp [hi, h32]
  · simp [hi]

/-- Only the bits of its width count when a field is put into a word. -/
theorem Slot.insert_congr {s : Slot} (h : s.width ≤ 32) {v v' : UInt32}
    (hv : v.toNat % capacity s.width = v'.toNat % capacity s.width) : s.insert v = s.insert v' := by
  have hand : v &&& lowMask s.width = v' &&& lowMask s.width := by
    apply UInt32.toNat_inj.mp
    rw [toNat_and_lowMask h, toNat_and_lowMask h, hv]
  rw [insert, insert, hand]

section Immediate

variable {s : Slot} (hcls : s.cls ≠ .reg) (hwidth : s.width = s.cls.width) {field : UInt32}
  (hfield : field.toNat < capacity s.width)

include hcls hwidth hfield

theorem fieldNumber_bounds : -0x8000000 ≤ fieldNumber s field ∧ fieldNumber s field < 0x10000000 := by
  have e16 : capacity 16 = 0x10000 := rfl
  have e26 : capacity 26 = 0x4000000 := rfl
  rw [hwidth] at hfield
  unfold fieldNumber
  rw [hwidth]
  cases hc : s.cls <;> simp only [hc, OperandClass.width, OperandClass.isSigned,
    OperandClass.inWords, e16, e26, Int.bmod_def, if_true, if_false, Bool.false_eq_true] at *
  · exact absurd rfl hcls
  all_goals omega

/-- No field is read as a number that its immediate cannot hold. -/
theorem toInt_fieldNumber : (Int64.ofInt (fieldNumber s field)).toInt = fieldNumber s field := by
  have hbounds := fieldNumber_bounds hcls hwidth hfield
  exact Int64.toInt_ofInt_of_le (by omega) (by omega)

/-- The immediate that a field is read as has that field again. -/
theorem toNat_immediateBits :
    (immediateBits s.cls (Int64.ofInt (fieldNumber s field))).toNat % capacity s.width =
      field.toNat := by
  have e16 : capacity 16 = 0x10000 := rfl
  have e26 : capacity 26 = 0x4000000 := rfl
  have hint := toInt_fieldNumber hcls hwidth hfield
  have hwhole := toNat_toUInt64_cast (Int64.ofInt (fieldNumber s field))
  have hwords := toNat_toUInt64_cast (Int64.ofInt (fieldNumber s field) >>> 2)
  rw [toInt_shiftRight_two, hint] at hwords
  rw [hint] at hwhole
  unfold immediateBits
  unfold fieldNumber at *
  rw [hwidth] at *
  cases hc : s.cls <;> simp only [hc, OperandClass.width, OperandClass.isSigned,
    OperandClass.inWords, e16, e26, Int.bmod_def, if_true, if_false, Bool.false_eq_true,
    UInt64.toNat_toUInt32] at *
  · exact absurd rfl hcls
  all_goals omega

end Immediate

theorem Slot.extract_lt {s : Slot} (h : s.width ≤ 32) (w : UInt32) :
    (s.extract w).toNat < capacity s.width := by
  rw [extract, toNat_and_lowMask h]
  exact Nat.mod_lt _ (capacity_pos _)

/-- An operand that was read from a word is put back where it was. -/
theorem insert_decodeOperand {s : Slot} (hbounds : s.shift + s.width ≤ 32)
    (hwidth : s.width = s.cls.width) (w : UInt32) :
    s.insert ((decodeOperand s w).field s) = w &&& s.mask := by
  have hle : s.width ≤ 32 := by omega
  have hpos : 0 < s.width := by
    rw [hwidth]
    cases s.cls <;> decide
  have hlt := Slot.extract_lt hle w
  rw [← Slot.insert_extract hbounds (by omega)]
  apply Slot.insert_congr hle
  rw [Nat.mod_eq_of_lt hlt]
  unfold decodeOperand
  by_cases hc : s.cls = .reg
  · have h32 : capacity s.width = 32 := by rw [hwidth, hc]; rfl
    rw [h32] at hlt ⊢
    simp only [hc, if_true, Operand.field, Reg.ofBits, UInt32.toNat_ofNat']
    omega
  · simp only [hc, if_false, Operand.field]
    exact toNat_immediateBits hc hwidth hlt

/-! ## The whole word -/

theorem fixedBits_eq {l : Layout} {w : UInt32} (hprimary : l.primary = primaryBits w)
    (hfunc : l.format = .r → l.func = funcBits w) : l.fixedBits = w &&& l.opcodeMask := by
  have hw := w.toNat_lt
  have e26 : capacity 26 = 0x4000000 := rfl
  have e11 : capacity 11 = 0x800 := rfl
  have htop : lowMask 6 <<< 26 = ~~~lowMask 26 := by decide
  have hhigh : (w &&& lowMask 6 <<< 26).toNat = w.toNat / 0x4000000 * 0x4000000 := by
    rw [htop, toNat_and_not_lowMask (by decide), e26]
  apply UInt32.toNat_inj.mp
  rw [Layout.fixedBits, Layout.opcodeMask, hprimary, primaryBits, UInt32.toNat_ofNat', e26, e11]
  by_cases hr : l.format = .r
  · have hlow : (w &&& lowMask 11).toNat = w.toNat % 0x800 := toNat_and_lowMask (by decide) w
    have hor := Nat.two_pow_add_eq_or_of_lt
      (show w.toNat % 0x800 < 2 ^ 26 by omega) (w.toNat / 0x4000000)
    rw [if_pos hr, if_pos hr, hfunc hr, funcBits, e11, land_lor_left, UInt32.toNat_or,
      hhigh, hlow, Nat.mul_comm]
    refine Eq.trans ?_ hor
    omega
  · rw [if_neg hr, if_neg hr, UInt32.or_zero, hhigh]
    omega

/-- The opcode and the operands are collected bit by bit. -/
theorem foldl_insert_decodeOperand {slots : List Slot}
    (hslots : ∀ s ∈ slots, s.shift + s.width ≤ 32 ∧ s.width = s.cls.width) (w mask : UInt32) :
    (slots.zip (slots.map (decodeOperand · w))).foldl
        (fun word x => word ||| x.1.insert (x.2.field x.1)) (w &&& mask) =
      w &&& slots.foldl (fun mask slot => mask ||| slot.mask) mask := by
  induction slots generalizing mask with
  | nil => rfl
  | cons s slots ih =>
    obtain ⟨⟨hbounds, hwidth⟩, hrest⟩ := List.forall_mem_cons.mp hslots
    rw [List.map_cons, List.zip_cons_cons, List.foldl_cons, List.foldl_cons,
      insert_decodeOperand hbounds hwidth, ← land_lor_left, ih hrest]

theorem Opcode.layout_of_ofFields? {primary func : Nat} {op : Opcode}
    (h : Opcode.ofFields? primary func = some op) :
    ∃ l, op.layout? = some l ∧ l.primary = primary ∧ (l.format = .r → l.func = func) := by
  have hfound := List.find?_some h
  obtain ⟨l, hl, hfields⟩ := (Option.any_eq_true _ _).mp hfound
  simp only [ne_eq, decide_not, Bool.and_eq_true, decide_eq_true_eq, Bool.or_eq_true,
    Bool.not_eq_true', decide_eq_false_iff_not] at hfields
  exact ⟨l, hl, hfields.1, fun hr => hfields.2.resolve_left (fun hne => hne hr)⟩

theorem layout_of_decode {w : UInt32} {i : Inst} (h : decode w = .ok i) :
    ∃ l, i.opcode.layout? = some l ∧ i.operands = l.slots.map (decodeOperand · w) ∧
      l.primary = primaryBits w ∧ (l.format = .r → l.func = funcBits w) := by
  unfold decode at h
  split at h
  · next op hop =>
    obtain ⟨l, hl, hprimary, hfunc⟩ := Opcode.layout_of_ofFields? hop
    simp only [hl, Option.map_some, Option.getD_some, Except.ok.injEq] at h
    subst h
    exact ⟨l, hl, rfl, hprimary, hfunc⟩
  · split at h <;> cases h

theorem suits_decodeOperand (op : Opcode) (s : Slot) (w : UInt32) :
    (decodeOperand s w).Suits op s ∧ (decodeOperand s w).fixup? op s = none := by
  unfold decodeOperand
  by_cases hc : s.cls = .reg <;> simp [hc, Operand.Suits, Operand.fixup?]

theorem encode_of_decode {w : UInt32} {i : Inst} (h : decode w = .ok i) :
    i.encode = .ok (canonicalWord w, []) := by
  obtain ⟨l, hl, hoperands, hprimary, hfunc⟩ := layout_of_decode h
  have hslots := Opcode.slot_bounds hl
  have hword : canonicalWord w = w &&& l.usedMask := by
    rw [canonicalWord, h]
    simp only [Opcode.usedMask, hl, Option.map_some, Option.getD_some]
  have hmem : ∀ x ∈ l.slots.zip (l.slots.map (decodeOperand · w)), x.2 = decodeOperand x.1 w := by
    intro x hx
    rw [← List.map_prod_left_eq_zip] at hx
    obtain ⟨s, -, rfl⟩ := List.mem_map.mp hx
    rfl
  refine Inst.encode_eq_ok_iff.mpr ⟨l, hl, by rw [hoperands, List.length_map], ?_, ?_⟩
  · intro x hx
    rw [hoperands] at hx
    rw [hmem x hx]
    exact (suits_decodeOperand _ _ _).1
  · rw [hoperands, fixedBits_eq hprimary hfunc, foldl_insert_decodeOperand hslots, hword]
    refine congrArg (Prod.mk _) (List.filterMap_eq_nil_iff.mpr ?_)
    intro x hx
    rw [hmem x hx]
    exact (suits_decodeOperand _ _ _).2

end Dlx
