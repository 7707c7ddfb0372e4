import Dlx.Decoding
import Dlx.Encoding
import Dlx.Proofs.Patch

/-!
# Fields of instruction words

Masks and shifts on words, said as division and remainder of the numbers they stand for. From this
follows what a decoder reads from a control transfer whose target field was filled in by a patch.

Results:
* `Slot.toNat_extract`, `FieldRule.toNat_mergeWord`: a field is read by a division and a remainder,
  and a patch replaces the low digits of the word.
* `decode_patched_transfer`: a patched branch, call or jump decodes to itself, with the value rounded
  down to a multiple of four.
-/
namespace Dlx

theorem toNat_lowMask {width : Nat} (h : width ≤ 32) : (lowMask width).toNat = capacity width - 1 := by
  have hle : capacity width ≤ capacity 32 := Nat.pow_le_pow_right (by decide) h
  have h32 : capacity 32 = 4294967296 := rfl
  have hpos := capacity_pos width
  rw [lowMask, Nat.min_eq_left h, UInt32.toNat_ofNat']
  exact Nat.mod_eq_of_lt (by change capacity width - 1 < 4294967296; omega)

theorem toNat_and_lowMask {width : Nat} (h : width ≤ 32) (w : UInt32) :
    (w &&& lowMask width).toNat = w.toNat % capacity width := by
  rw [UInt32.toNat_and, toNat_lowMask h]
  exact Nat.and_two_pow_sub_one_eq_mod w.toNat width

theorem Slot.toNat_extract {s : Slot} (hs : s.shift < 32) (hw : s.width ≤ 32) (w : UInt32) :
    (s.extract w).toNat = w.toNat / capacity s.shift % capacity s.width := by
  have hshift : (UInt32.ofNat s.shift).toNat % 32 = s.shift := by
    rw [UInt32.toNat_ofNat']
    omega
  rw [extract, toNat_and_lowMask hw, UInt32.toNat_shiftRight, hshift, Nat.shiftRight_eq_div_pow]
  rfl

theorem Slot.toNat_insert {s : Slot} (hs : s.shift < 32) (hw : s.width ≤ 32) (v : UInt32) :
    (s.insert v).toNat = v.toNat % capacity s.width * capacity s.shift % 0x100000000 := by
  have hshift : (UInt32.ofNat s.shift).toNat % 32 = s.shift := by
    rw [UInt32.toNat_ofNat']
    omega
  rw [insert, UInt32.toNat_shiftLeft, hshift, toNat_and_lowMask hw, Nat.shiftLeft_eq]
  rfl

/-- The bits of a word above a mask. -/
theorem toNat_and_not_lowMask {width : Nat} (h : width ≤ 32) (w : UInt32) :
    (w &&& ~~~lowMask width).toNat = w.toNat / capacity width * capacity width := by
  have hw := w.toNat_lt
  have hlt : capacity width - 1 < 2 ^ 32 := by
    rw [← toNat_lowMask h]
    exact (lowMask width).toNat_lt
  rw [UInt32.toNat_and, UInt32.toNat_not, toNat_lowMask h]
  have hsub : UInt32.size - 1 - (capacity width - 1) = 2 ^ 32 - ((capacity width - 1) + 1) := by
    change 4294967296 - 1 - _ = 4294967296 - _
    omega
  apply Nat.eq_of_testBit_eq
  intro i
  rw [hsub, Nat.testBit_and, Nat.testBit_two_pow_sub_succ hlt]
  change (w.toNat.testBit i && (decide (i < 32) && !(2 ^ width - 1).testBit i)) =
    (w.toNat / 2 ^ width * 2 ^ width).testBit i
  rw [Nat.testBit_mul_two_pow, Nat.testBit_div_two_pow, Nat.testBit_two_pow_sub_one]
  by_cases hi : i < width
  · simp [hi, Nat.not_le.mpr hi]
  · have hle : width ≤ i := Nat.le_of_not_lt hi
    rw [Nat.sub_add_cancel hle]
    by_cases h32 : i < 32
    · simp [hle, h32]
    · have : w.toNat.testBit i = false :=
        Nat.testBit_lt_two_pow (Nat.lt_of_lt_of_le hw (Nat.pow_le_pow_right (by decide) (by omega)))
      simp [this]

theorem FieldRule.toNat_mergeWord {rule : FieldRule} (h0 : rule.bitOffset = 0)
    (hw : rule.bitWidth ≤ 32) (word field : UInt32) :
    (rule.mergeWord word field).toNat =
      word.toNat / capacity rule.bitWidth * capacity rule.bitWidth +
        field.toNat % capacity rule.bitWidth := by
  have hz : ∀ x : UInt32, x <<< UInt32.ofNat 0 = x := by
    intro x
    apply UInt32.toNat_inj.mp
    rw [UInt32.toNat_shiftLeft]
    simp
  unfold mergeWord
  rw [h0]
  dsimp only
  rw [hz, hz, UInt32.toNat_or, toNat_and_not_lowMask hw, toNat_and_lowMask hw, Nat.mul_comm]
  have hlt : field.toNat % capacity rule.bitWidth < 2 ^ rule.bitWidth :=
    Nat.mod_lt _ (capacity_pos _)
  exact (Nat.two_pow_add_eq_or_of_lt hlt _).symm

/-! ## Control transfers -/

/-- The relocation that fills in the target of a branch, call or jump. -/
def Opcode.transferType? : Opcode → Option RelocType
  | .beqz | .bnez => some .pc16
  | .jal => some .pc26
  | .j => some .abs26
  | _ => none

/-- The number of words that the field of a transfer holds. -/
theorem toNat_fieldBits {ty : RelocType} (hty : ty.rule.part = .words) (v : UInt64) :
    (((ty.fieldBits v).toUInt32.toNat % capacity ty.rule.bitWidth : Nat) : Int) =
      v.toInt64.toInt / 4 % capacity ty.rule.bitWidth := by
  have hs := toInt_shiftRight_two v.toInt64
  have hu := toNat_toUInt64_cast (v.toInt64 >>> 2)
  have e16 : capacity 16 = 0x10000 := rfl
  have e26 : capacity 26 = 0x4000000 := rfl
  rw [hs] at hu
  rw [RelocType.fieldBits, hty, FieldPart.select, UInt64.toNat_toUInt32, UInt64.toNat_ofNat']
  cases ty <;> cases hty <;> simp only [RelocType.rule, FieldRule.inWord, e16, e26] <;> omega

/-- The immediate that is read from a field with a number. -/
def slotImmediate (slot : Slot) (field : Nat) : Operand :=
  .imm (Int64.ofInt (fieldNumber slot (UInt32.ofNat field)))

theorem decodeOperand_low {slot : Slot} (hcls : slot.cls ≠ .reg) (hshift : slot.shift = 0)
    (hwidth : slot.width ≤ 32) (word : UInt32) :
    decodeOperand slot word = slotImmediate slot (word.toNat % capacity slot.width) := by
  have hfield : slot.extract word = UInt32.ofNat (word.toNat % capacity slot.width) := by
    have hlt := word.toNat_lt
    have hle := Nat.mod_le word.toNat (capacity slot.width)
    apply UInt32.toNat_inj.mp
    rw [Slot.toNat_extract (by omega) hwidth, hshift, show capacity 0 = 1 from rfl, Nat.div_one,
      UInt32.toNat_ofNat', Nat.mod_eq_of_lt (Nat.lt_of_le_of_lt hle hlt)]
  unfold decodeOperand
  rw [if_neg hcls, hfield]
  rfl

theorem decodeOperand_reg {slot : Slot} (hcls : slot.cls = .reg) (hshift : slot.shift < 32)
    (hwidth : slot.width = 5) {word : UInt32} {r : Reg}
    (hr : word.toNat / capacity slot.shift % 32 = r.num.val) : decodeOperand slot word = .reg r := by
  have hreg : (slot.extract word).toNat = r.num.val := by
    rw [Slot.toNat_extract hshift (by omega), hwidth]
    exact hr
  rw [decodeOperand, if_pos hcls, hreg, Reg.ofBits]
  exact congrArg (fun n => Operand.reg ⟨n⟩) (Fin.ext (Nat.mod_eq_of_lt r.num.isLt))

theorem decode_eq_ok {op : Opcode} {l : Layout} {word : UInt32}
    (hop : Opcode.ofFields? (primaryBits word) (funcBits word) = some op)
    (hl : op.layout? = some l) : decode word = .ok ⟨op, l.slots.map (decodeOperand · word)⟩ := by
  unfold decode
  rw [hop]
  simp only [hl, Option.map_some, Option.getD_some]

theorem decode_branch {op : Opcode} {primary : Nat} (hl : op.layout? = some (.branch primary))
    (hop : ∀ func, Opcode.ofFields? primary func = some op) {word : UInt32} (r : Reg) {field : Nat}
    (hf : field < 0x10000)
    (hw : word.toNat = primary * 0x4000000 + r.num.val * 0x200000 + field) :
    decode word = .ok ⟨op, [.reg r, slotImmediate ⟨0, 16, .branch⟩ field]⟩ := by
  have hr := r.num.isLt
  have hprimary : primaryBits word = primary := by
    rw [primaryBits, hw, show capacity 26 = 0x4000000 from rfl]
    omega
  have hdecode : decodeOperand Layout.rs1 word = .reg r := by
    apply decodeOperand_reg rfl (by decide) rfl
    rw [hw, show capacity Layout.rs1.shift = 0x200000 from rfl]
    omega
  have hfield : word.toNat % capacity 16 = field := by
    rw [hw, show capacity 16 = 0x10000 from rfl]
    omega
  rw [decode_eq_ok (hprimary ▸ hop _) hl]
  simp only [Layout.branch, List.map_cons, List.map_nil, hdecode]
  rw [decodeOperand_low (by decide) rfl (by decide), hfield]

theorem decode_target {op : Opcode} {primary : Nat} {cls : OperandClass} (hcls : cls ≠ .reg)
    (hl : op.layout? = some ⟨.j, primary, 0, [⟨0, 26, cls⟩]⟩)
    (hop : ∀ func, Opcode.ofFields? primary func = some op) {word : UInt32} {field : Nat}
    (hf : field < 0x4000000) (hw : word.toNat = primary * 0x4000000 + field) :
    decode word = .ok ⟨op, [slotImmediate ⟨0, 26, cls⟩ field]⟩ := by
  have hprimary : primaryBits word = primary := by
    rw [primaryBits, hw, show capacity 26 = 0x4000000 from rfl]
    omega
  have hfield : word.toNat % capacity 26 = field := by
    rw [hw, show capacity 26 = 0x4000000 from rfl]
    omega
  rw [decode_eq_ok (hprimary ▸ hop _) hl]
  simp only [List.map_cons, List.map_nil]
  rw [decodeOperand_low hcls rfl (by change 26 ≤ 32; decide), hfield]

/-- The immediate that a decoder reads from the field of a transfer, if the value fits. -/
theorem slotImmediate_of_fits {ty : RelocType} {cls : OperandClass}
    (h : (ty, cls) ∈ [(.pc16, .branch), (.pc26, .call), (.abs26, .jump)]) {t : Int}
    (hfit : ty.Fits t) {field : Nat} (hfield : (field : Int) = t / 4 % capacity ty.rule.bitWidth) :
    slotImmediate ⟨0, ty.rule.bitWidth, cls⟩ field = .imm (Int64.ofInt (4 * (t / 4))) := by
  have e16 : capacity 16 = 0x10000 := rfl
  have e26 : capacity 26 = 0x4000000 := rfl
  have hnum : fieldNumber ⟨0, ty.rule.bitWidth, cls⟩ (UInt32.ofNat field) = 4 * (t / 4) := by
    simp only [List.mem_cons, Prod.mk.injEq, List.not_mem_nil, or_false] at h
    unfold fieldNumber
    rw [UInt32.toNat_ofNat']
    rcases h with ⟨rfl, rfl⟩ | ⟨rfl, rfl⟩ | ⟨rfl, rfl⟩ <;>
      simp only [RelocType.rule, FieldRule.inWord, RelocType.Fits, OperandClass.isSigned,
        OperandClass.inWords, if_true, if_false, Bool.false_eq_true, e16, e26, Int.bmod_def] at *
    · split <;> omega
    · split <;> omega
    · omega
  rw [slotImmediate, hnum]

/-! ## Encoding a transfer -/

theorem encodeOperand_reg {op : Opcode} {index : Nat} {slot : Slot} (hcls : slot.cls = .reg)
    {operand : Operand} {field : UInt32} {fixups : List Fixup}
    (h : encodeOperand op index slot operand = .ok (field, fixups)) :
    ∃ r, operand = .reg r ∧ field = UInt32.ofNat r.num.val ∧ fixups = [] := by
  cases operand with
  | reg r =>
    simp only [encodeOperand, hcls, if_true, Except.ok.injEq, Prod.mk.injEq] at h
    exact ⟨r, rfl, h.1.symm, h.2.symm⟩
  | imm v => simp [encodeOperand, hcls] at h
  | expr e => simp [encodeOperand, hcls] at h

theorem encodeOperand_expr {op : Opcode} {index : Nat} {slot : Slot} {e : Expr} {field : UInt32}
    {fixups : List Fixup} (h : encodeOperand op index slot (.expr e) = .ok (field, fixups)) :
    field = 0 ∧ ∃ kind, fixupKind? op slot.cls e.marker = some kind ∧ fixups = [⟨0, e, kind⟩] := by
  simp only [encodeOperand] at h
  split at h
  · cases h
  · split at h
    · cases h
    · unfold chooseFixup at h
      cases hk : fixupKind? op slot.cls e.marker with
      | none => simp [hk, bind, Except.bind] at h
      | some kind =>
        simp only [hk, bind, Except.bind, pure, Except.pure, Except.ok.injEq, Prod.mk.injEq] at h
        exact ⟨h.1.symm, kind, rfl, h.2.symm⟩

theorem toNat_fixedBits {primary func : Nat} {format : Format} {slots : List Slot}
    (hf : format ≠ .r) (hlt : primary < 64) :
    (Layout.fixedBits ⟨format, primary, func, slots⟩).toNat = primary * 0x4000000 := by
  unfold Layout.fixedBits
  simp only [hf, if_false, Nat.add_zero, show capacity 26 = 0x4000000 from rfl]
  rw [UInt32.toNat_ofNat']
  omega

theorem Slot.insert_zero (s : Slot) : s.insert 0 = 0 := by
  simp [Slot.insert]

theorem encode_branch {op : Opcode} {primary : Nat} (hl : op.layout? = some (.branch primary))
    (hlt : primary < 64) {operands : List Operand} {e : Expr} {word : UInt32} {fixups : List Fixup}
    (h : (Inst.mk op (operands ++ [.expr e])).encode = .ok (word, fixups)) :
    ∃ r kind, operands = [.reg r] ∧ fixupKind? op .branch e.marker = some kind ∧
      fixups = [⟨0, e, kind⟩] ∧ word.toNat = primary * 0x4000000 + r.num.val * 0x200000 := by
  unfold Inst.encode at h
  simp only [hl] at h
  split at h
  · next hlen =>
    simp only [List.length_append, Layout.branch, List.length_cons, List.length_nil] at hlen
    obtain ⟨o, rfl⟩ := List.length_eq_one_iff.mp (show operands.length = 1 by omega)
    simp only [Layout.branch, List.cons_append, List.nil_append, List.zip_cons_cons,
      List.zip_nil_left, encodeOperands, Except.bind_eq_ok_iff, Prod.exists] at h
    obtain ⟨field, first, hreg, word', rest, ⟨field', last, hexpr, _, _, hnil, hlast⟩, h⟩ := h
    obtain ⟨r, rfl, rfl, rfl⟩ := encodeOperand_reg rfl hreg
    obtain ⟨rfl, kind, hkind, rfl⟩ := encodeOperand_expr hexpr
    cases hnil
    cases hlast
    cases h
    refine ⟨r, kind, rfl, hkind, rfl, ?_⟩
    have hr := r.num.isLt
    have hins : (Layout.rs1.insert (UInt32.ofNat r.num.val)).toNat = r.num.val * 0x200000 := by
      rw [Slot.toNat_insert (by decide) (by decide), UInt32.toNat_ofNat',
        show capacity Layout.rs1.width = 32 from rfl,
        show capacity Layout.rs1.shift = 0x200000 from rfl]
      omega
    rw [Slot.insert_zero, UInt32.or_zero, UInt32.toNat_or, toNat_fixedBits (by decide) hlt, hins]
    have hor := Nat.two_pow_add_eq_or_of_lt
      (show r.num.val * 0x200000 < 2 ^ 26 by omega) primary
    rw [show (2 : Nat) ^ 26 = 0x4000000 from rfl, Nat.mul_comm] at hor
    exact hor.symm
  · cases h

theorem encode_target {op : Opcode} {primary : Nat} {cls : OperandClass}
    (hl : op.layout? = some ⟨.j, primary, 0, [⟨0, 26, cls⟩]⟩) (hlt : primary < 64)
    {operands : List Operand} {e : Expr} {word : UInt32} {fixups : List Fixup}
    (h : (Inst.mk op (operands ++ [.expr e])).encode = .ok (word, fixups)) :
    ∃ kind, operands = [] ∧ fixupKind? op cls e.marker = some kind ∧ fixups = [⟨0, e, kind⟩] ∧
      word.toNat = primary * 0x4000000 := by
  unfold Inst.encode at h
  simp only [hl] at h
  split at h
  · next hlen =>
    simp only [List.length_append, List.length_cons, List.length_nil] at hlen
    obtain rfl := List.length_eq_zero_iff.mp (show operands.length = 0 by omega)
    simp only [List.nil_append, List.zip_cons_cons, List.zip_nil_left, encodeOperands,
      Except.bind_eq_ok_iff, Prod.exists] at h
    obtain ⟨field, first, hexpr, _, _, hnil, h⟩ := h
    obtain ⟨rfl, kind, hkind, rfl⟩ := encodeOperand_expr hexpr
    cases hnil
    cases h
    refine ⟨kind, rfl, hkind, rfl, ?_⟩
    rw [Slot.insert_zero, UInt32.or_zero, toNat_fixedBits (by decide) hlt]
  · cases h

/-! ## Decoding a patched transfer -/

theorem relocType?_of_fixupKind? {op : Opcode} {ty : RelocType} {cls : OperandClass}
    (h : (ty, cls) ∈ [(.pc16, .branch), (.pc26, .call), (.abs26, .jump)]) {m : Marker}
    {kind : FixupKind} (hk : fixupKind? op cls m = some kind) : kind.relocType? = some ty := by
  simp only [List.mem_cons, Prod.mk.injEq, List.not_mem_nil, or_false] at h
  rcases h with ⟨rfl, rfl⟩ | ⟨rfl, rfl⟩ | ⟨rfl, rfl⟩ <;> cases m <;> cases hk <;> rfl

/-- Filling in the target of a transfer adds a number to the word, and that number is read as the
target rounded down to a multiple of four. -/
theorem mergeWord_target {ty : RelocType} {cls : OperandClass}
    (htc : (ty, cls) ∈ [(.pc16, .branch), (.pc26, .call), (.abs26, .jump)]) {word : UInt32}
    (hword : word.toNat % capacity ty.rule.bitWidth = 0) {v : UInt64}
    (hfit : ty.Fits v.toInt64.toInt) :
    ∃ field < capacity ty.rule.bitWidth,
      (ty.rule.mergeWord word (ty.fieldBits v).toUInt32).toNat = word.toNat + field ∧
      slotImmediate ⟨0, ty.rule.bitWidth, cls⟩ field =
        .imm (Int64.ofInt (4 * (v.toInt64.toInt / 4))) := by
  have hrule : ty.rule.bitOffset = 0 ∧ ty.rule.bitWidth ≤ 32 ∧ ty.rule.part = .words := by
    simp only [List.mem_cons, Prod.mk.injEq, List.not_mem_nil, or_false] at htc
    rcases htc with ⟨rfl, rfl⟩ | ⟨rfl, rfl⟩ | ⟨rfl, rfl⟩ <;> decide
  obtain ⟨h0, hwidth, hpart⟩ := hrule
  refine ⟨_, Nat.mod_lt _ (capacity_pos _), ?_,
    slotImmediate_of_fits htc hfit (toNat_fieldBits hpart v)⟩
  rw [FieldRule.toNat_mergeWord h0 hwidth,
    Nat.div_mul_cancel (Nat.dvd_of_mod_eq_zero hword)]

theorem decode_patched_branch {op : Opcode} {primary : Nat}
    (hl : op.layout? = some (.branch primary)) (hlt : primary < 64)
    (hop : ∀ func, Opcode.ofFields? primary func = some op) {operands : List Operand} {e : Expr}
    {word : UInt32} {fixups : List Fixup}
    (h : (Inst.mk op (operands ++ [.expr e])).encode = .ok (word, fixups)) :
    ∃ kind, kind.relocType? = some .pc16 ∧ fixups = [⟨0, e, kind⟩] ∧
      ∀ v : UInt64, RelocType.pc16.Fits v.toInt64.toInt →
        decode (RelocType.pc16.rule.mergeWord word (RelocType.pc16.fieldBits v).toUInt32) =
          .ok ⟨op, operands ++ [.imm (Int64.ofInt (4 * (v.toInt64.toInt / 4)))]⟩ := by
  obtain ⟨r, kind, rfl, hkind, rfl, hword⟩ := encode_branch hl hlt h
  refine ⟨kind, relocType?_of_fixupKind? List.mem_cons_self hkind, rfl, ?_⟩
  intro v hfit
  have hcap : capacity RelocType.pc16.rule.bitWidth = 0x10000 := rfl
  have hlow : word.toNat % capacity RelocType.pc16.rule.bitWidth = 0 := by
    rw [hcap, hword]
    omega
  obtain ⟨field, hfield, hmerged, himm⟩ := mergeWord_target List.mem_cons_self hlow hfit
  rw [hcap] at hfield
  rw [hword] at hmerged
  rw [decode_branch hl hop r hfield hmerged, ← himm]
  rfl

theorem decode_patched_target {op : Opcode} {primary : Nat} {ty : RelocType} {cls : OperandClass}
    (htc : (ty, cls) ∈ [(.pc26, .call), (.abs26, .jump)])
    (hl : op.layout? = some ⟨.j, primary, 0, [⟨0, 26, cls⟩]⟩) (hlt : primary < 64)
    (hop : ∀ func, Opcode.ofFields? primary func = some op) {operands : List Operand} {e : Expr}
    {word : UInt32} {fixups : List Fixup}
    (h : (Inst.mk op (operands ++ [.expr e])).encode = .ok (word, fixups)) :
    ∃ kind, kind.relocType? = some ty ∧ fixups = [⟨0, e, kind⟩] ∧
      ∀ v : UInt64, ty.Fits v.toInt64.toInt →
        decode (ty.rule.mergeWord word (ty.fieldBits v).toUInt32) =
          .ok ⟨op, operands ++ [.imm (Int64.ofInt (4 * (v.toInt64.toInt / 4)))]⟩ := by
  obtain ⟨kind, rfl, hkind, rfl, hword⟩ := encode_target hl hlt h
  refine ⟨kind, relocType?_of_fixupKind? (List.mem_cons_of_mem _ htc) hkind, rfl, ?_⟩
  have hrule : ty.rule.bitWidth = 26 ∧ cls ≠ .reg := by
    simp only [List.mem_cons, Prod.mk.injEq, List.not_mem_nil, or_false] at htc
    rcases htc with ⟨rfl, rfl⟩ | ⟨rfl, rfl⟩ <;> decide
  obtain ⟨hwidth, hcls⟩ := hrule
  intro v hfit
  have hcap : capacity ty.rule.bitWidth = 0x4000000 := by rw [hwidth]; rfl
  have hlow : word.toNat % capacity ty.rule.bitWidth = 0 := by
    rw [hcap, hword]
    omega
  obtain ⟨field, hfield, hmerged, himm⟩ := mergeWord_target (List.mem_cons_of_mem _ htc) hlow hfit
  rw [hcap] at hfield
  rw [hword] at hmerged
  rw [decode_target hcls hl hop hfield hmerged, ← himm, hwidth]
  rfl

/-- A branch, call or jump whose target was filled in decodes to itself. The target comes back
rounded down to a multiple of four. -/
theorem decode_patched_transfer {op : Opcode} {ty : RelocType} (hty : op.transferType? = some ty)
    {operands : List Operand} {e : Expr} {word : UInt32} {fixups : List Fixup}
    (h : (Inst.mk op (operands ++ [.expr e])).encode = .ok (word, fixups)) :
    ∃ kind, kind.relocType? = some ty ∧ fixups = [⟨0, e, kind⟩] ∧
      ∀ v : UInt64, ty.Fits v.toInt64.toInt →
        decode (ty.rule.mergeWord word (ty.fieldBits v).toUInt32) =
          .ok ⟨op, operands ++ [.imm (Int64.ofInt (4 * (v.toInt64.toInt / 4)))]⟩ := by
  cases op <;> cases hty
  · exact decode_patched_target (by simp) rfl (by decide) (fun _ => rfl) h
  · exact decode_patched_target (by simp) rfl (by decide) (fun _ => rfl) h
  · exact decode_patched_branch rfl (by decide) (fun _ => rfl) h
  · exact decode_patched_branch rfl (by decide) (fun _ => rfl) h

end Dlx
