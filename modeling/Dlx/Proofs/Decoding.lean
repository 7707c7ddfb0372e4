import Dlx.Proofs.Recoding
import Dlx.Source.Statement
import Mathlib.Data.List.Forall2

/-!
# Decoding what was encoded

The fields of a layout lie apart from each other and from the bits of the opcode. So whatever is put
into them, each is read back by itself, and the opcode is found again: a register comes back as it
was, and an immediate as the number that its field can represent (`OperandClass.represented`).

Results:
* `encode_direct`: the word of an instruction without symbols holds the opcode and each operand in
  bits of its own.
* `represented_eq_self_iff`: the immediates that come back unchanged are the constants that source
  text may hold.
* `encode_decode_inverse`: the encoder and the decoder undo each other on what a word can represent.
-/
namespace Dlx

/-! ## Fields that lie apart -/

namespace Slot

theorem insert_eq (s : Slot) (v : UInt32) :
    s.insert v = v <<< UInt32.ofNat s.shift &&& s.mask := UInt32.shiftLeft_and

theorem insert_land_mask (s : Slot) (v : UInt32) : s.insert v &&& s.mask = s.insert v := by
  rw [insert_eq, UInt32.and_assoc, UInt32.and_self]

/-- A field that is put in is not seen through a mask that lies apart from it. -/
theorem insert_land_of_apart {s : Slot} {mask : UInt32} (h : s.mask &&& mask = 0) (v : UInt32) :
    s.insert v &&& mask = 0 := by
  rw [insert_eq, UInt32.and_assoc, h, UInt32.and_zero]

theorem extract_insert {s : Slot} (h : s.shift + s.width ≤ 32) (hs : s.shift < 32) (v : UInt32) :
    s.extract (s.insert v) = v &&& lowMask s.width := by
  have hshift : (UInt32.ofNat s.shift).toNat % 32 = s.shift := by
    rw [UInt32.toNat_ofNat']
    omega
  apply UInt32.toNat_inj.mp
  apply Nat.eq_of_testBit_eq
  intro i
  rw [insert, extract, UInt32.toNat_and, UInt32.toNat_shiftRight, UInt32.toNat_shiftLeft, hshift,
    Nat.testBit_and, Nat.testBit_shiftRight, Nat.testBit_mod_two_pow, Nat.testBit_shiftLeft,
    Nat.add_sub_cancel_left, UInt32.toNat_and, Nat.testBit_and, testBit_lowMask (by omega)]
  by_cases hi : i < s.width
  · have h32 : s.shift + i < 32 := by omega
    simp [hi, h32]
  · simp [hi]

/-- A field is read from the bits under its mask. -/
theorem extract_land_mask {s : Slot} (h : s.shift + s.width ≤ 32) (hs : s.shift < 32)
    (w : UInt32) : s.extract (w &&& s.mask) = s.extract w := by
  rw [← insert_extract h hs, extract_insert h hs, extract, UInt32.and_assoc, UInt32.and_self]

end Slot

theorem OperandClass.width_pos (cls : OperandClass) : 0 < cls.width := by
  cases cls <;> decide

/-- The bits of the opcode and of the operands do not overlap. -/
structure Layout.Separate (l : Layout) : Prop where
  slots : l.slots.Pairwise fun s t => s.mask &&& t.mask = 0
  opcode : ∀ s ∈ l.slots, s.mask &&& l.opcodeMask = 0
  fixed : l.fixedBits &&& l.opcodeMask = l.fixedBits

theorem Opcode.layout_separate {op : Opcode} {l : Layout} (h : op.layout? = some l) :
    l.Separate := by
  cases op <;> cases h <;> exact ⟨by decide, by decide, by decide⟩

theorem Layout.Separate.fixedBits_land_mask {l : Layout} (h : l.Separate) {s : Slot}
    (hs : s ∈ l.slots) : l.fixedBits &&& s.mask = 0 := by
  rw [← h.fixed, UInt32.and_assoc, UInt32.and_comm l.opcodeMask, h.opcode s hs, UInt32.and_zero]

/-! ## Collecting the fields -/

theorem lor_land_right (a b c : UInt32) : (a ||| b) &&& c = (a &&& c) ||| (b &&& c) := by
  rw [UInt32.and_comm, land_lor_left, UInt32.and_comm c a, UInt32.and_comm c b]

/-- The word with the operands put into their slots. -/
def insertFields (word : UInt32) (xs : List (Slot × Operand)) : UInt32 :=
  xs.foldl (fun w x => w ||| x.1.insert (x.2.field x.1)) word

section InsertFields

variable {xs : List (Slot × Operand)}

theorem insertFields_cons (word : UInt32) (x : Slot × Operand) :
    insertFields word (x :: xs) = insertFields (word ||| x.1.insert (x.2.field x.1)) xs := rfl

/-- Bits apart from all slots stay as they are. -/
theorem insertFields_land_of_apart {mask : UInt32} (h : ∀ x ∈ xs, x.1.mask &&& mask = 0)
    (word : UInt32) : insertFields word xs &&& mask = word &&& mask := by
  induction xs generalizing word with
  | nil => rfl
  | cons x xs ih =>
    obtain ⟨hx, hxs⟩ := List.forall_mem_cons.mp h
    rw [insertFields_cons, ih hxs, lor_land_right, Slot.insert_land_of_apart hx, UInt32.or_zero]

/-- Each slot holds its own operand. -/
theorem insertFields_land_mask (hxs : xs.Pairwise fun x y => x.1.mask &&& y.1.mask = 0)
    {word : UInt32} (hword : ∀ x ∈ xs, word &&& x.1.mask = 0) :
    ∀ x ∈ xs, insertFields word xs &&& x.1.mask = x.1.insert (x.2.field x.1) := by
  induction xs generalizing word with
  | nil => simp
  | cons x xs ih =>
    obtain ⟨hx, hxs⟩ := List.pairwise_cons.mp hxs
    obtain ⟨hzero, hrest⟩ := List.forall_mem_cons.mp hword
    refine List.forall_mem_cons.mpr ⟨?_, ih hxs fun y hy => ?_⟩
    · have hlater : ∀ y ∈ xs, y.1.mask &&& x.1.mask = 0 := by
        intro y hy
        rw [UInt32.and_comm]
        exact hx y hy
      rw [insertFields_cons, insertFields_land_of_apart hlater, lor_land_right, hzero, UInt32.zero_or,
        Slot.insert_land_mask]
    · rw [lor_land_right, hrest y hy, UInt32.zero_or, Slot.insert_land_of_apart (hx y hy)]

end InsertFields

/-- A register in a register's slot or an immediate elsewhere. -/
def Operand.Direct (slot : Slot) : Operand → Prop
  | .reg _ => slot.cls = .reg
  | .imm _ => slot.cls ≠ .reg
  | .expr _ => False

theorem Operand.Direct.suits {slot : Slot} {o : Operand} (h : o.Direct slot) (op : Opcode) :
    o.Suits op slot ∧ o.fixup? op slot = none := by
  cases o with
  | reg r => exact ⟨h, rfl⟩
  | imm v => exact ⟨h, rfl⟩
  | expr e => exact h.elim

theorem encode_direct {op : Opcode} {l : Layout} (hl : op.layout? = some l)
    {operands : List Operand} (h : List.Forall₂ Operand.Direct l.slots operands) :
    ∃ w, (Inst.mk op operands).encode = .ok (w, []) ∧ w &&& l.opcodeMask = l.fixedBits ∧
      List.Forall₂ (fun s o => w &&& s.mask = s.insert (o.field s)) l.slots operands := by
  have hsep := Opcode.layout_separate hl
  obtain ⟨hlen, hdirect⟩ := List.forall₂_iff_zip.mp h
  have hslot : ∀ x ∈ l.slots.zip operands, x.1 ∈ l.slots := fun x hx => (List.of_mem_zip hx).1
  have hpair : (l.slots.zip operands).Pairwise fun x y => x.1.mask &&& y.1.mask = 0 := by
    have hmap : ((l.slots.zip operands).map Prod.fst).Pairwise fun s t => s.mask &&& t.mask = 0 := by
      rw [List.map_fst_zip (Nat.le_of_eq hlen)]
      exact hsep.slots
    exact List.pairwise_map.mp hmap
  refine ⟨insertFields l.fixedBits (l.slots.zip operands), ?_, ?_, ?_⟩
  · refine Inst.encode_eq_ok_iff.mpr ⟨l, hl, hlen.symm, ?_, ?_⟩
    · intro x hx
      exact ((hdirect hx).suits op).1
    · refine congrArg (Prod.mk _) (List.filterMap_eq_nil_iff.mpr ?_)
      intro x hx
      exact ((hdirect hx).suits op).2
  · rw [insertFields_land_of_apart (fun x hx => hsep.opcode _ (hslot x hx)), hsep.fixed]
  · have hfields := insertFields_land_mask hpair fun x hx => hsep.fixedBits_land_mask (hslot x hx)
    exact List.forall₂_iff_zip.mpr ⟨hlen, fun {s o} hx => hfields (s, o) hx⟩

/-! ## Finding the opcode -/

theorem primaryBits_land_opcodeMask (l : Layout) (w : UInt32) :
    primaryBits (w &&& l.opcodeMask) = primaryBits w := by
  have hw := w.toNat_lt
  have hmask : l.opcodeMask.toNat / capacity 26 = 2 ^ 6 - 1 := by
    unfold Layout.opcodeMask
    split <;> decide
  rw [primaryBits, UInt32.toNat_and]
  refine Nat.and_div_two_pow.trans ?_
  rw [show l.opcodeMask.toNat / 2 ^ 26 = 2 ^ 6 - 1 from hmask, Nat.and_two_pow_sub_one_eq_mod,
    primaryBits, show capacity 26 = 2 ^ 26 from rfl]
  omega

theorem funcBits_land_opcodeMask {l : Layout} (hr : l.format = .r) (w : UInt32) :
    funcBits (w &&& l.opcodeMask) = funcBits w := by
  have hmask : l.opcodeMask.toNat % capacity 11 = 2 ^ 11 - 1 := by
    rw [Layout.opcodeMask, if_pos hr]
    decide
  rw [funcBits, UInt32.toNat_and]
  refine Nat.and_mod_two_pow.trans ?_
  rw [show l.opcodeMask.toNat % 2 ^ 11 = 2 ^ 11 - 1 from hmask, Nat.and_two_pow_sub_one_eq_mod,
    Nat.mod_mod, funcBits, show capacity 11 = 2 ^ 11 from rfl]

theorem Opcode.fields_fixedBits {op : Opcode} {l : Layout} (h : op.layout? = some l) :
    primaryBits l.fixedBits = l.primary ∧ (l.format = .r → funcBits l.fixedBits = l.func) := by
  cases op <;> cases h <;> decide

theorem Opcode.primary_eq_zero_iff {op : Opcode} {l : Layout} (h : op.layout? = some l) :
    l.primary = 0 ↔ l.format = .r := by
  cases op <;> cases h <;> decide

/-- The function code counts only under the primary opcode zero. -/
theorem Opcode.ofFields?_congr {primary func func' : Nat} (h : primary = 0 → func = func') :
    Opcode.ofFields? primary func = Opcode.ofFields? primary func' := by
  unfold ofFields?
  congr 1
  funext op
  cases hl : op.layout? with
  | none => rfl
  | some l =>
    by_cases hp : l.primary = primary
    · by_cases hr : l.format = .r
      · rw [h (hp ▸ (primary_eq_zero_iff hl).mpr hr)]
      · simp [hr]
    · simp [hp]

theorem Opcode.ofFields?_layout {op : Opcode} {l : Layout} (h : op.layout? = some l) {func : Nat}
    (hfunc : l.format = .r → func = l.func) : Opcode.ofFields? l.primary func = some op := by
  have htable : Opcode.ofFields? l.primary l.func = some op := by
    cases op <;> cases h <;> rfl
  rw [← htable]
  exact ofFields?_congr fun hzero => hfunc ((primary_eq_zero_iff h).mp hzero)

/-- A word with the bits of an opcode is decoded by its layout. -/
theorem decode_of_opcodeMask {op : Opcode} {l : Layout} (hl : op.layout? = some l) {w : UInt32}
    (hw : w &&& l.opcodeMask = l.fixedBits) :
    decode w = .ok ⟨op, l.slots.map (decodeOperand · w)⟩ := by
  obtain ⟨hprimary, hfunc⟩ := Opcode.fields_fixedBits hl
  have hop : Opcode.ofFields? l.primary (funcBits w) = some op := by
    refine Opcode.ofFields?_layout hl fun hr => ?_
    rw [← funcBits_land_opcodeMask hr, hw, hfunc hr]
  rw [← hprimary, ← hw, primaryBits_land_opcodeMask] at hop
  exact decode_eq_ok hop hl

/-! ## Reading the operands back -/

/-- The number that stands for an immediate in a field of the class. Distances and addresses are
counted in words and rounded down; what does not fit is cut off at the top. -/
def OperandClass.represented (cls : OperandClass) (v : Int) : Int :=
  match cls with
  | .reg => v
  | .simm16 => v.bmod 0x10000
  | .uimm16 => v % 0x10000
  | .branch => 4 * (v / 4).bmod 0x10000
  | .call => 4 * (v / 4).bmod 0x4000000
  | .jump => 4 * (v / 4 % 0x4000000)

/-- The operand that its field represents. -/
def Operand.represented (slot : Slot) : Operand → Operand
  | .imm v => .imm (Int64.ofInt (slot.cls.represented v.toInt))
  | o => o

/-- The field of an immediate, as far as it is kept. -/
theorem immediateBits_mod (cls : OperandClass) (v : Int64) :
    (((immediateBits cls v).toNat % capacity cls.width : Nat) : Int) =
      (if cls.inWords then v.toInt / 4 else v.toInt) % capacity cls.width := by
  have e5 : capacity 5 = 0x20 := rfl
  have e16 : capacity 16 = 0x10000 := rfl
  have e26 : capacity 26 = 0x4000000 := rfl
  have hwhole := toNat_toUInt64_cast v
  have hwords := toNat_toUInt64_cast (v >>> 2)
  rw [toInt_shiftRight_two] at hwords
  unfold immediateBits
  cases cls <;> simp only [OperandClass.width, OperandClass.inWords, e5, e16, e26, if_true, if_false,
    Bool.false_eq_true, UInt64.toNat_toUInt32] <;> omega

theorem fieldNumber_immediateBits {s : Slot} (hcls : s.cls ≠ .reg) (hwidth : s.width = s.cls.width)
    (v : Int64) : fieldNumber s (immediateBits s.cls v &&& lowMask s.width) =
      s.cls.represented v.toInt := by
  have e16 : capacity 16 = 0x10000 := rfl
  have e26 : capacity 26 = 0x4000000 := rfl
  have hbits := immediateBits_mod s.cls v
  have hle : s.cls.width ≤ 32 := by cases s.cls <;> decide
  unfold fieldNumber
  rw [hwidth, toNat_and_lowMask hle, hbits]
  cases hc : s.cls <;> simp only [hc, OperandClass.width, OperandClass.isSigned,
    OperandClass.inWords, OperandClass.represented, e16, e26, if_true, if_false,
    Bool.false_eq_true, Int.emod_bmod] at *
  · exact absurd rfl hcls
  all_goals rfl

/-- An operand is read back from its own bits. -/
theorem decodeOperand_eq_represented {s : Slot} (hbounds : s.shift + s.width ≤ 32)
    (hwidth : s.width = s.cls.width) {o : Operand} (ho : o.Direct s) {w : UInt32}
    (hw : w &&& s.mask = s.insert (o.field s)) : decodeOperand s w = o.represented s := by
  have hle : s.width ≤ 32 := by omega
  have hpos := s.cls.width_pos
  have hfield : s.extract w = o.field s &&& lowMask s.width := by
    rw [← Slot.extract_land_mask hbounds (by omega), hw, Slot.extract_insert hbounds (by omega)]
  unfold decodeOperand
  rw [hfield]
  cases o with
  | reg r =>
    have hcls : s.cls = .reg := ho
    have hlt := r.num.isLt
    have hnum : (UInt32.ofNat r.num.val &&& lowMask s.width).toNat % 32 = r.num.val := by
      rw [toNat_and_lowMask hle, hwidth, hcls, UInt32.toNat_ofNat',
        show capacity OperandClass.reg.width = 32 from rfl]
      omega
    rw [if_pos hcls]
    exact congrArg (fun n => Operand.reg ⟨n⟩) (Fin.ext hnum)
  | imm v =>
    have hcls : s.cls ≠ .reg := ho
    rw [if_neg hcls, Operand.field, fieldNumber_immediateBits hcls hwidth]
    rfl
  | expr e => exact ho.elim

theorem represented_bounds {cls : OperandClass} (hcls : cls ≠ .reg) (v : Int) :
    -0x8000000 ≤ cls.represented v ∧ cls.represented v < 0x10000000 := by
  cases cls <;> simp only [OperandClass.represented, Int.bmod_def]
  · exact absurd rfl hcls
  all_goals omega

/-- The constants that source text may hold are the immediates that their field represents. -/
theorem represented_eq_self_iff {cls : OperandClass} (hcls : cls ≠ .reg) (v : Int64) :
    Int64.ofInt (cls.represented v.toInt) = v ↔ Source.fitsField cls v = true := by
  have hbounds := represented_bounds hcls v.toInt
  have hint : Int64.ofInt (cls.represented v.toInt) = v ↔ cls.represented v.toInt = v.toInt := by
    rw [← Int64.toInt_inj, Int64.toInt_ofInt_of_le (by omega) (by omega)]
  rw [hint]
  cases cls <;> simp only [OperandClass.represented, Source.fitsField, Bool.and_eq_true,
    decide_eq_true_eq, Int.bmod_def]
  · exact absurd rfl hcls
  all_goals omega

/-- The operands come back unchanged exactly if their immediates fit. -/
theorem zipWith_represented_eq_iff {slots : List Slot} {operands : List Operand}
    (h : List.Forall₂ Operand.Direct slots operands) :
    List.zipWith Operand.represented slots operands = operands ↔
      List.Forall₂ (fun s o => ∀ v, o = .imm v → Source.fitsField s.cls v = true)
        slots operands := by
  induction h with
  | nil => simp
  | @cons s o slots operands ho _ ih =>
    rw [List.zipWith_cons_cons, List.cons.injEq, List.forall₂_cons, ih]
    refine and_congr_left fun _ => ?_
    cases o with
    | reg r => simp [Operand.represented]
    | imm v => simp [Operand.represented, represented_eq_self_iff ho]
    | expr e => exact ho.elim

theorem map_decodeOperand {slots : List Slot} {operands : List Operand} {w : UInt32}
    (hbounds : ∀ s ∈ slots, s.shift + s.width ≤ 32 ∧ s.width = s.cls.width)
    (h : List.Forall₂ Operand.Direct slots operands)
    (hfields : List.Forall₂ (fun s o => w &&& s.mask = s.insert (o.field s)) slots operands) :
    slots.map (decodeOperand · w) = List.zipWith Operand.represented slots operands := by
  induction h with
  | nil => rfl
  | cons ho _ ih =>
    obtain ⟨hfield, hfields⟩ := List.forall₂_cons.mp hfields
    obtain ⟨⟨hfit, hwidth⟩, hbounds⟩ := List.forall_mem_cons.mp hbounds
    rw [List.map_cons, List.zipWith_cons_cons, ih hbounds hfields,
      decodeOperand_eq_represented hfit hwidth ho hfield]

theorem decode_encode_direct {op : Opcode} {l : Layout} (hl : op.layout? = some l)
    {operands : List Operand} (h : List.Forall₂ Operand.Direct l.slots operands) :
    ∃ w, (Inst.mk op operands).encode = .ok (w, []) ∧
      decode w = .ok ⟨op, List.zipWith Operand.represented l.slots operands⟩ := by
  obtain ⟨w, hencode, hopcode, hfields⟩ := encode_direct hl h
  refine ⟨w, hencode, ?_⟩
  rw [decode_of_opcodeMask hl hopcode, map_decodeOperand (Opcode.slot_bounds hl) h hfields]

/-! ## Unused bits -/

theorem Opcode.usedMask_land {op : Opcode} {l : Layout} (h : op.layout? = some l) :
    op.usedMask &&& l.opcodeMask = l.opcodeMask ∧
      ∀ s ∈ l.slots, op.usedMask &&& s.mask = s.mask := by
  cases op <;> cases h <;> decide

/-- The decoder reads no bits but those that the instruction uses. -/
theorem decode_land_usedMask {w : UInt32} {i : Inst} (h : decode w = .ok i) :
    decode (w &&& i.opcode.usedMask) = .ok i := by
  obtain ⟨l, hl, hoperands, hprimary, hfunc⟩ := layout_of_decode h
  obtain ⟨hopcode, hslots⟩ := Opcode.usedMask_land hl
  have hbits : w &&& i.opcode.usedMask &&& l.opcodeMask = l.fixedBits := by
    rw [UInt32.and_assoc, hopcode, ← fixedBits_eq hprimary hfunc]
  rw [decode_of_opcodeMask hl hbits]
  suffices hread : ∀ s ∈ l.slots, decodeOperand s (w &&& i.opcode.usedMask) = decodeOperand s w by
    rw [List.map_congr_left hread, ← hoperands]
  intro s hs
  obtain ⟨hbounds, hwidth⟩ := Opcode.slot_bounds hl s hs
  have hpos := s.cls.width_pos
  have hextract : s.extract (w &&& i.opcode.usedMask) = s.extract w := by
    rw [← Slot.extract_land_mask hbounds (by omega), UInt32.and_assoc, hslots s hs,
      Slot.extract_land_mask hbounds (by omega)]
  rw [decodeOperand, hextract, decodeOperand]

/-! ## Both ways -/

/-- The encoder and the decoder undo each other on what a word can represent. An instruction without
symbols is encoded, without a fixup, and comes back with each immediate as its field represents it;
it comes back unchanged exactly if the immediates pass the check of constants in source text. A word
that is decoded is encoded again without the bits that belong neither to the opcode nor to an
operand, and these make no difference. -/
theorem encode_decode_inverse :
    (∀ (op : Opcode) (l : Layout) (operands : List Operand), op.layout? = some l →
      List.Forall₂ Operand.Direct l.slots operands →
      ∃ w, (Inst.mk op operands).encode = .ok (w, []) ∧
        decode w = .ok ⟨op, List.zipWith Operand.represented l.slots operands⟩ ∧
        (decode w = .ok ⟨op, operands⟩ ↔
          List.Forall₂ (fun s o => ∀ v, o = .imm v → Source.fitsField s.cls v = true)
            l.slots operands)) ∧
    (∀ (w : UInt32) (i : Inst), decode w = .ok i →
      i.encode = .ok (w &&& i.opcode.usedMask, []) ∧
        decode (w &&& i.opcode.usedMask) = .ok i) := by
  refine ⟨fun op l operands hl h => ?_, fun w i h => ⟨?_, decode_land_usedMask h⟩⟩
  · obtain ⟨w, hencode, hdecode⟩ := decode_encode_direct hl h
    refine ⟨w, hencode, hdecode, ?_⟩
    rw [hdecode, Except.ok.injEq, Inst.mk.injEq, ← zipWith_represented_eq_iff h]
    simp
  · rw [encode_of_decode h, canonicalWord, h]

/-- A distance that is no number of words comes back rounded down, and unused bits behind a register
jump are dropped. -/
theorem encode_decode_inverse_oddDistance :
    (∃ w, (Inst.mk .beqz [.reg (.ofBits 7), .imm (-6)]).encode = .ok (w, []) ∧
      decode w = .ok ⟨.beqz, [.reg (.ofBits 7), .imm (-8)]⟩ ∧
      decode w ≠ .ok ⟨.beqz, [.reg (.ofBits 7), .imm (-6)]⟩) ∧
    (Inst.mk .jr [.reg (.ofBits 31)]).encode = .ok (0x4be00000, []) ∧
    decode 0x4be00000 = .ok ⟨.jr, [.reg (.ofBits 31)]⟩ := by
  refine ⟨?_, encode_decode_inverse.2 0x4be01234 ⟨.jr, [.reg (.ofBits 31)]⟩ (by rfl)⟩
  obtain ⟨w, hencode, hdecode, hfits⟩ := encode_decode_inverse.1 .beqz _
    [.reg (.ofBits 7), .imm (-6)] rfl (.cons rfl (.cons nofun .nil))
  refine ⟨w, hencode, hdecode, fun hsame => ?_⟩
  cases hfits.mp hsame with
  | cons _ hrest =>
    cases hrest with
    | cons himm _ => exact absurd (himm _ rfl) (by decide)

end Dlx
