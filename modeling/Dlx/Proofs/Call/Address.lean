import Dlx.Call.Sequence
import Dlx.Proofs.Call.Machine
import Dlx.Proofs.Encoding
import Dlx.Proofs.Fields

/-!
# Two words that build an address

The address of a symbol is put into a register by two instructions. Both are encoded with an empty
field, and the halves of the address are filled in later, each by itself. The words are then run as
they stand.

Results:
* `refers?_symAt`: the expression of the pair refers to its symbol at the distance, whatever the sign.
* `encode_addressSequence`: the two words, and what their fields are to be filled with.
* `Machine.runWords_filled`: with the halves of one address filled in, the pair puts that address into
  its register and changes nothing else.
-/
namespace Dlx

/-! ## Running words -/

namespace Machine

/-- Runs a word: a load of a high half, or an instruction of straight-line code. -/
def stepWord (m : Machine) (word : UInt32) : Option Machine :=
  match decode word with
  | .ok ⟨.lhi, [.reg rd, .imm v]⟩ => some (m.setReg rd (immWord v <<< 16))
  | .ok i => m.step i
  | .error _ => none

/-- Runs words in order. -/
def runWords (m : Machine) (words : List UInt32) : Option Machine := words.foldlM stepWord m

theorem setReg_setReg (m : Machine) (r : Reg) (v w : UInt32) :
    (m.setReg r v).setReg r w = m.setReg r w := by
  simp only [setReg, Machine.mk.injEq, and_true]
  funext x
  split <;> rfl

end Machine

/-! ## The two instructions -/

theorem refers?_symAt {m : Marker} (h : m ≠ .invalid) (symbol : String) (offset : Int64) :
    ((Expr.symAt symbol offset).withMarker m).refers? = some ⟨m, some symbol, none, offset⟩ := by
  have hunder : (Expr.symAt symbol offset).refersUnder? m = some ⟨m, some symbol, none, offset⟩ := by
    unfold Expr.symAt
    split
    · next h0 => rw [h0]; rfl
    · split
      · rfl
      -- The smallest number is its own negative, so here too the sign changes twice.
      · exact congrArg (fun a => some (SymbolRef.mk m (some symbol) none a)) (Int64.neg_neg)
  unfold Expr.withMarker
  split
  · next hm =>
    subst hm
    rw [← hunder]
    unfold Expr.symAt
    split
    · rfl
    · split <;> rfl
  · rw [Expr.refers?, if_neg h, hunder]

theorem marker_withMarker (e : Expr) {m : Marker} (h : m ≠ .none) : (e.withMarker m).marker = m := by
  rw [Expr.withMarker, if_neg h]
  rfl

theorem encode_lhi (dst : Reg) {e : Expr} (he : e.refers?.isSome) (hm : e.marker = .hi) :
    ∃ word : UInt32, (Inst.mk .lhi [.reg dst, .expr e]).encode = .ok (word, [⟨0, e, .hi16⟩]) ∧
      word.toNat = 0x0f * 0x4000000 + dst.num.val * 0x10000 := by
  have hword : ∀ n : Fin 32, ((Layout.highImm 0x0f).fixedBits |||
      Layout.rdImm.insert (UInt32.ofNat n.val) ||| Layout.uimm16.insert 0).toNat =
        0x0f * 0x4000000 + n.val * 0x10000 := by
    decide
  refine ⟨_, Inst.encode_eq_ok_iff.mpr ⟨.highImm 0x0f, rfl, rfl, ?_, ?_⟩, hword dst.num⟩
  · simp [Layout.highImm, Layout.rdImm, Layout.uimm16, Operand.Suits, he, hm, fixupKind?]
  · simp [Layout.highImm, Operand.field, Operand.fixup?, hm, fixupKind?, Layout.uimm16]

theorem encode_addi (dst : Reg) {e : Expr} (he : e.refers?.isSome) (hm : e.marker = .lo) :
    ∃ word : UInt32,
      (Inst.mk .addi [.reg dst, .reg dst, .expr e]).encode = .ok (word, [⟨0, e, .lo16⟩]) ∧
      word.toNat = 0x08 * 0x4000000 + dst.num.val * 0x200000 + dst.num.val * 0x10000 := by
  have hword : ∀ n : Fin 32, ((Layout.signedImm 0x08).fixedBits |||
      Layout.rdImm.insert (UInt32.ofNat n.val) ||| Layout.rs1.insert (UInt32.ofNat n.val) |||
        Layout.simm16.insert 0).toNat =
        0x08 * 0x4000000 + n.val * 0x200000 + n.val * 0x10000 := by
    decide
  refine ⟨_, Inst.encode_eq_ok_iff.mpr ⟨.signedImm 0x08, rfl, rfl, ?_, ?_⟩, hword dst.num⟩
  · simp [Layout.signedImm, Layout.rdImm, Layout.rs1, Layout.simm16, Operand.Suits, he, hm,
      fixupKind?]
  · simp [Layout.signedImm, Operand.field, Operand.fixup?, hm, fixupKind?, Layout.simm16]

/-- The pair is encoded, each word with an empty field for its half. -/
theorem encode_addressSequence (dst : Reg) (symbol : String) (offset : Int64) :
    ∃ (i j : Inst) (high low : UInt32), addressSequence dst symbol offset = [i, j] ∧
      i.EncodesReference high .hi16 symbol offset ∧ j.EncodesReference low .lo16 symbol offset ∧
      high.toNat = 0x0f * 0x4000000 + dst.num.val * 0x10000 ∧
      low.toNat = 0x08 * 0x4000000 + dst.num.val * 0x200000 + dst.num.val * 0x10000 := by
  have hhi := @refers?_symAt .hi (by decide) symbol offset
  have hlo := @refers?_symAt .lo (by decide) symbol offset
  obtain ⟨high, hhigh, hhighWord⟩ :=
    encode_lhi dst (Option.isSome_of_eq_some hhi) (marker_withMarker _ (by decide))
  obtain ⟨low, hlow, hlowWord⟩ :=
    encode_addi dst (Option.isSome_of_eq_some hlo) (marker_withMarker _ (by decide))
  exact ⟨_, _, high, low, rfl, ⟨_, .hi, hhigh, rfl, hhi⟩, ⟨_, .lo, hlow, rfl, hlo⟩, hhighWord,
    hlowWord⟩

/-! ## The filled pair -/

theorem decode_lhi {word : UInt32} (dst : Reg) {field : Nat} (hfield : field < 0x10000)
    (hw : word.toNat = 0x0f * 0x4000000 + dst.num.val * 0x10000 + field) :
    decode word = .ok ⟨.lhi, [.reg dst, .imm (Int64.ofNat field)]⟩ := by
  have hdst := dst.num.isLt
  have hprimary : primaryBits word = 0x0f := by
    rw [primaryBits, hw, show capacity 26 = 0x4000000 from rfl]
    omega
  have hreg : decodeOperand Layout.rdImm word = .reg dst := by
    apply decodeOperand_reg rfl (by decide) rfl
    rw [hw, show capacity Layout.rdImm.shift = 0x10000 from rfl]
    omega
  have himm : decodeOperand Layout.uimm16 word = .imm (Int64.ofNat field) := by
    have hlow : word.toNat % capacity Layout.uimm16.width = field := by
      rw [hw, show capacity Layout.uimm16.width = 0x10000 from rfl]
      omega
    have hnum : fieldNumber Layout.uimm16 (UInt32.ofNat field) = field := by
      rw [fieldNumber, UInt32.toNat_ofNat']
      simp only [Layout.uimm16, OperandClass.isSigned, OperandClass.inWords, Bool.false_eq_true,
        if_false]
      omega
    rw [decodeOperand_low (by decide) rfl (by decide), hlow, slotImmediate, hnum,
      Int64.ofInt_eq_ofNat]
  rw [decode_eq_ok (l := .highImm 0x0f) (by rw [hprimary]; rfl) rfl]
  simp only [Layout.highImm, List.map_cons, List.map_nil, hreg, himm]

theorem decode_addi {word : UInt32} (dst : Reg) {half : UInt16}
    (hw : word.toNat = 0x08 * 0x4000000 + dst.num.val * 0x200000 + dst.num.val * 0x10000 +
      half.toNat) :
    decode word = .ok ⟨.addi, [.reg dst, .reg dst, .imm (Int64.ofInt (signedHalf half))]⟩ := by
  have hdst := dst.num.isLt
  have hhalf := half.toNat_lt
  have hprimary : primaryBits word = 0x08 := by
    rw [primaryBits, hw, show capacity 26 = 0x4000000 from rfl]
    omega
  have hrd : decodeOperand Layout.rdImm word = .reg dst := by
    apply decodeOperand_reg rfl (by decide) rfl
    rw [hw, show capacity Layout.rdImm.shift = 0x10000 from rfl]
    omega
  have hrs : decodeOperand Layout.rs1 word = .reg dst := by
    obtain ⟨below, hbelow⟩ : ∃ below, below = dst.num.val * 0x10000 + half.toNat := ⟨_, rfl⟩
    have hlt : below < 0x200000 := by omega
    apply decodeOperand_reg rfl (by decide) rfl
    rw [hw, show capacity Layout.rs1.shift = 0x200000 from rfl, Nat.add_assoc, ← hbelow]
    omega
  have himm : decodeOperand Layout.simm16 word = .imm (Int64.ofInt (signedHalf half)) := by
    have hlow : word.toNat % capacity Layout.simm16.width = half.toNat := by
      rw [hw, show capacity Layout.simm16.width = 0x10000 from rfl]
      omega
    have hsmall : (UInt32.ofNat half.toNat).toNat = half.toNat := by
      rw [UInt32.toNat_ofNat']
      omega
    have hnum : fieldNumber Layout.simm16 (UInt32.ofNat half.toNat) = signedHalf half := by
      have hcap : capacity 16 = 0x10000 := rfl
      unfold fieldNumber signedHalf
      simp only [hsmall, Layout.simm16, OperandClass.isSigned, OperandClass.inWords,
        Bool.false_eq_true, if_false, if_true, hcap, Int.bmod_def]
    rw [decodeOperand_low (by decide) rfl (by decide), hlow, slotImmediate, hnum]
  rw [decode_eq_ok (l := .signedImm 0x08) (by rw [hprimary]; rfl) rfl]
  simp only [Layout.signedImm, List.map_cons, List.map_nil, hrd, hrs, himm]

/-- Filling the field of a half adds that half to a word with an empty field. -/
theorem toNat_mergeWord_half {ty : RelocType} {word : UInt32} (hword : word.toNat % 0x10000 = 0)
    {v : UInt64} {half : UInt16}
    (h : (ty = .hi16 ∧ half = highHalf v.toUInt32) ∨ (ty = .lo16 ∧ half = lowHalf v.toUInt32)) :
    (ty.rule.mergeWord word (ty.fieldBits v).toUInt32).toNat = word.toNat + half.toNat := by
  have hhalf := half.toNat_lt
  have hcap : capacity 16 = 0x10000 := rfl
  have hfield : (ty.fieldBits v).toUInt32.toNat = half.toNat := by
    rcases h with ⟨rfl, rfl⟩ | ⟨rfl, rfl⟩ <;>
      simp only [RelocType.fieldBits, RelocType.rule, FieldRule.inWord, FieldPart.select, hcap,
        UInt64.toNat_toUInt32, UInt64.toNat_ofNat', UInt16.toNat_toUInt64] <;> omega
  have hrule : ty.rule.bitOffset = 0 ∧ ty.rule.bitWidth = 16 := by
    rcases h with ⟨rfl, -⟩ | ⟨rfl, -⟩ <;> exact ⟨rfl, rfl⟩
  rw [FieldRule.toNat_mergeWord hrule.1 (by omega), hrule.2, hcap, hfield]
  omega

namespace Machine

/-- The high half, shifted, and the low half with its sign make the address again. -/
theorem add_halves (address : UInt32) :
    (immWord (Int64.ofNat (highHalf address).toNat) <<< 16) +
      immWord (Int64.ofInt (signedHalf (lowHalf address))) = address := by
  have hjoin := join_halves address
  have hhigh := (highHalf address).toNat_lt
  apply UInt32.toNat_inj.mp
  rw [immWord_ofNat, immWord_ofInt, UInt32.toNat_add, UInt32.toNat_shiftLeft, UInt32.ofInt,
    UInt32.toNat_ofNat', UInt32.toNat_ofNat', Nat.shiftLeft_eq]
  change (_ * 65536 % 4294967296 + _) % 4294967296 = _
  omega

theorem runWords_filled (dst : Reg) {high low : UInt32}
    (hhigh : high.toNat = 0x0f * 0x4000000 + dst.num.val * 0x10000)
    (hlow : low.toNat = 0x08 * 0x4000000 + dst.num.val * 0x200000 + dst.num.val * 0x10000)
    {v w : UInt64} {address : UInt32} (hv : v.toUInt32 = address) (hw : w.toUInt32 = address)
    (m : Machine) :
    m.runWords [RelocType.hi16.rule.mergeWord high (RelocType.hi16.fieldBits v).toUInt32,
      RelocType.lo16.rule.mergeWord low (RelocType.lo16.fieldBits w).toUInt32] =
        some (m.setReg dst address) := by
  have hhighWord := @toNat_mergeWord_half .hi16 high (by omega) v (highHalf address)
    (.inl ⟨rfl, by rw [hv]⟩)
  have hlowWord := @toNat_mergeWord_half .lo16 low (by omega) w (lowHalf address)
    (.inr ⟨rfl, by rw [hw]⟩)
  rw [hhigh] at hhighWord
  rw [hlow] at hlowWord
  have hfirst := decode_lhi dst (highHalf address).toNat_lt hhighWord
  have hsecond := decode_addi dst hlowWord
  simp only [runWords, List.foldlM_cons, List.foldlM_nil, stepWord, hfirst, hsecond, step,
    Option.bind_eq_bind, Option.bind_some, regs_setReg_self, add_halves, setReg_setReg]
  rfl

end Machine

end Dlx
