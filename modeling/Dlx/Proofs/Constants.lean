import Dlx.Proofs.Decoding

/-!
# Constants and filled fields

A number in an instruction goes into its field at once; a symbol leaves the field empty, and a
relocation fills it when the value is known. The two ways have range checks and computations of
their own. They agree: what may be written as a number is what a relocation accepts, up to the
multiples of four, and both give the same word.

Results:
* `encode_in_slot`: an operand adds its field to a word that does not depend on it.
* `FieldRule.mergeWord_eq_lor`: to fill an empty field is to put the operand in.
* `constant_eq_filled_field`: a constant target, and a constant under `%lo` or `%hi`, gives the word
  that a symbol gives once its field is filled with that constant.
-/
namespace Dlx

/-! ## One operand among the others -/

theorem insertFields_append (word : UInt32) (xs ys : List (Slot × Operand)) :
    insertFields word (xs ++ ys) = insertFields (insertFields word xs) ys := List.foldl_append

theorem insertFields_lor (word v : UInt32) (xs : List (Slot × Operand)) :
    insertFields (word ||| v) xs = insertFields word xs ||| v := by
  induction xs generalizing word with
  | nil => rfl
  | cons x xs ih =>
    rw [insertFields_cons, insertFields_cons, ← ih, UInt32.or_assoc, UInt32.or_assoc,
      UInt32.or_comm v]

theorem encode_in_slot {op : Opcode} {l : Layout} (hl : op.layout? = some l) {pre post : List Slot}
    {slot : Slot} (hslots : l.slots = pre ++ slot :: post) {before after : List Operand}
    (hbefore : List.Forall₂ Operand.Direct pre before)
    (hafter : List.Forall₂ Operand.Direct post after) :
    ∃ rest : UInt32, rest &&& slot.mask = 0 ∧ ∀ o : Operand, o.Suits op slot →
      (Inst.mk op (before ++ o :: after)).encode =
        .ok (rest ||| slot.insert (o.field slot), (o.fixup? op slot).toList) := by
  obtain ⟨hlen, hbefore⟩ := List.forall₂_iff_zip.mp hbefore
  obtain ⟨hlen', hafter⟩ := List.forall₂_iff_zip.mp hafter
  have hsep := Opcode.layout_separate hl
  have hapart := hsep.slots
  rw [hslots, List.pairwise_append, List.pairwise_cons] at hapart
  obtain ⟨-, ⟨hpost, -⟩, hpre⟩ := hapart
  refine ⟨insertFields (insertFields l.fixedBits (pre.zip before)) (post.zip after), ?_, ?_⟩
  · rw [insertFields_land_of_apart, insertFields_land_of_apart,
      hsep.fixedBits_land_mask (hslots ▸ List.mem_append_right _ List.mem_cons_self)]
    · intro x hx
      exact hpre _ (List.of_mem_zip hx).1 _ List.mem_cons_self
    · intro x hx
      rw [UInt32.and_comm]
      exact hpost _ (List.of_mem_zip hx).1
  · intro o ho
    have hzip : l.slots.zip (before ++ o :: after) =
        pre.zip before ++ (slot, o) :: post.zip after := by
      rw [hslots, List.zip_append hlen, List.zip_cons_cons]
    have hnone : ∀ {xs : List (Slot × Operand)}, (∀ x ∈ xs, x.2.Direct x.1) →
        (xs.filterMap fun x => x.2.fixup? op x.1) = [] := fun h =>
      List.filterMap_eq_nil_iff.mpr fun x hx => ((h x hx).suits op).2
    refine Inst.encode_eq_ok_iff.mpr ⟨l, hl, ?_, ?_, ?_⟩
    · simp [hslots, hlen, hlen']
    · dsimp only
      rw [hzip]
      intro x hx
      rcases List.mem_append.mp hx with hx | hx
      · exact ((hbefore hx).suits op).1
      · rcases List.mem_cons.mp hx with rfl | hx
        · exact ho
        · exact ((hafter hx).suits op).1
    · dsimp only
      rw [hzip]
      refine Prod.ext ?_ ?_
      · exact (insertFields_append _ _ _).trans (insertFields_lor _ _ _)
      · rw [List.filterMap_append, hnone fun x hx => hbefore hx, List.nil_append,
          List.filterMap_cons, hnone fun x hx => hafter hx]
        cases o.fixup? op slot <;> rfl

/-! ## Filling an empty field -/

theorem FieldRule.mergeWord_eq_lor {rule : FieldRule} {slot : Slot}
    (hoffset : rule.bitOffset = slot.shift) (hwidth : rule.bitWidth = slot.width) {word : UInt32}
    (hword : word &&& slot.mask = 0) (field : UInt32) :
    rule.mergeWord word field = word ||| slot.insert field := by
  have hrest : word &&& ~~~slot.mask = word := by
    calc word &&& ~~~slot.mask
        = (word &&& slot.mask) ||| (word &&& ~~~slot.mask) := by rw [hword, UInt32.zero_or]
      _ = word := by rw [← land_lor_left, UInt32.or_not_self, UInt32.and_neg_one]
  unfold mergeWord
  rw [hoffset, hwidth]
  change (word &&& ~~~slot.mask) ||| (field <<< UInt32.ofNat slot.shift &&& slot.mask) = _
  rw [hrest, Slot.insert_eq]

/-- The relocation fills the field of the slot. -/
structure RelocType.Fills (ty : RelocType) (slot : Slot) : Prop where
  offset : ty.rule.bitOffset = slot.shift
  width : ty.rule.bitWidth = slot.width
  inWord : ty ∉ [.none, .abs32, .abs64]

theorem RelocType.Fills.patch {ty : RelocType} {slot : Slot} (h : ty.Fills slot) {rest : UInt32}
    (hrest : rest &&& slot.mask = 0) {value : UInt64} (hfits : ty.Fits value.toInt64.toInt)
    (before after : Bytes) :
    ty.rule.patch (before ++ wordBytes rest ++ after) (before.length + 0) value =
      .ok (before ++ wordBytes (rest ||| slot.insert (ty.fieldBits value).toUInt32) ++ after) := by
  have hlen : ∀ w, (wordBytes w).length = 4 := fun w => length_leBytes 4 w.toNat
  have hty := h.inWord
  have hsize : ty.rule.size = 4 := by
    cases ty <;> simp_all [RelocType.rule, FieldRule.inWord]
  have hwithin : (ty.write 0 value).Within (wordBytes rest).length := by
    refine Nat.le_of_eq ?_
    change 0 + ty.rule.size = (wordBytes rest).length
    rw [hlen, hsize]
  have hword : (ty.write 0 value).apply (wordBytes rest) =
      wordBytes (rest ||| slot.insert (ty.fieldBits value).toUInt32) := by
    have hplace : ((wordBytes rest).drop 0).take ty.rule.size = wordBytes rest :=
      List.take_of_length_le (Nat.le_of_eq (by rw [List.drop_zero, hlen, hsize]))
    rw [Write.apply, show (ty.write 0 value).offset = 0 from rfl,
      show (ty.write 0 value).size = ty.rule.size from rfl, hplace,
      RelocType.new_write_wordBytes hty, FieldRule.mergeWord_eq_lor h.offset h.width hrest, splice,
      hlen, Nat.zero_add, List.drop_of_length_le (Nat.le_of_eq (hlen rest))]
    simp
  refine RelocType.patch_eq_ok_iff.mpr ⟨?_, hfits, ?_, ?_⟩
  · rintro rfl
    exact hty List.mem_cons_self
  · simp only [Write.Within, RelocType.write, hsize, List.length_append, hlen]
    omega
  · rw [← hword, ← Write.apply_middle hwithin]
    rfl

/-- The instruction has one fixup, and to fill it with `value`, wherever the instruction stands, makes
its word `word`. -/
def Inst.FillsTo (i : Inst) (value : UInt64) (word : UInt32) : Prop :=
  ∃ rest f ty, i.encode = .ok (rest, [f]) ∧ f.kind.relocType? = some ty ∧
    ∀ before after : Bytes,
      ty.rule.patch (before ++ wordBytes rest ++ after) (before.length + f.offset.toNat) value =
        .ok (before ++ wordBytes word ++ after)

/-! ## The two ways give the same field -/

/-- The relocations of branch, call and jump targets. -/
theorem target_relocation {cls : OperandClass} (h : cls.inWords = true) (op : Opcode) :
    ∃ kind ty, fixupKind? op cls .none = some kind ∧ kind.relocType? = some ty ∧
      (ty, cls) ∈ [(.pc16, .branch), (.pc26, .call), (.abs26, .jump)] := by
  cases cls <;> cases h
  · exact ⟨.branchPc16, .pc16, rfl, rfl, by simp⟩
  · exact ⟨.callPc26, .pc26, rfl, rfl, by simp⟩
  · exact ⟨.jump26, .abs26, rfl, rfl, by simp⟩

theorem fitsField_iff_accepted {ty : RelocType} {cls : OperandClass}
    (h : (ty, cls) ∈ [(.pc16, .branch), (.pc26, .call), (.abs26, .jump)]) (v : Int64) :
    Source.fitsField cls v = true ↔
      v.toInt % 4 = 0 ∧ ∃ field, ty.rule.fieldValue v.toUInt64 = .ok field := by
  rw [RelocType.fieldValue_isOk_iff, Int64.toInt64_toUInt64]
  simp only [List.mem_cons, Prod.mk.injEq, List.not_mem_nil, or_false] at h
  rcases h with ⟨rfl, rfl⟩ | ⟨rfl, rfl⟩ | ⟨rfl, rfl⟩ <;>
    simp [Source.fitsField, RelocType.Fits, and_assoc]

theorem target_rule {ty : RelocType} {cls : OperandClass}
    (h : (ty, cls) ∈ [(.pc16, .branch), (.pc26, .call), (.abs26, .jump)]) :
    ty.rule.bitOffset = 0 ∧ ty.rule.bitWidth = cls.width ∧ ty.rule.part = .words ∧
      ty ∉ [.none, .abs32, .abs64] := by
  simp only [List.mem_cons, Prod.mk.injEq, List.not_mem_nil, or_false] at h
  rcases h with ⟨rfl, rfl⟩ | ⟨rfl, rfl⟩ | ⟨rfl, rfl⟩ <;> decide

theorem immediateBits_target {ty : RelocType} {cls : OperandClass} (hcls : cls.inWords = true)
    (h : (ty, cls) ∈ [(.pc16, .branch), (.pc26, .call), (.abs26, .jump)]) (v : Int64) :
    (immediateBits cls v).toNat % capacity cls.width =
      (ty.fieldBits v.toUInt64).toUInt32.toNat % capacity cls.width := by
  obtain ⟨-, hwidth, hpart, -⟩ := target_rule h
  have himm := immediateBits_mod cls v
  have hfield := toNat_fieldBits hpart v.toUInt64
  rw [if_pos hcls] at himm
  rw [hwidth, Int64.toInt64_toUInt64, ← himm] at hfield
  exact (Int.natCast_inj.mp hfield).symm

/-- A half that was folded has the bits that a relocation writes for it. -/
theorem fold_half {m : Marker} {ty : RelocType} (h : (m, ty) ∈ [(.lo, .lo16), (.hi, .hi16)])
    (c : Int64) : ∃ k, m.fold? c = some k ∧
      k.toInt % 0x10000 = ((ty.fieldBits c.toUInt64).toUInt32.toNat % 0x10000 : Nat) := by
  have e16 : capacity 16 = 0x10000 := rfl
  simp only [List.mem_cons, Prod.mk.injEq, List.not_mem_nil, or_false] at h
  rcases h with ⟨rfl, rfl⟩ | ⟨rfl, rfl⟩
  · have hlt := (lowHalf c.toUInt64.toUInt32).toNat_lt
    have hsigned : signedHalf (lowHalf c.toUInt64.toUInt32) =
        Int.bmod (lowHalf c.toUInt64.toUInt32).toNat 0x10000 := rfl
    rw [Int.bmod_def] at hsigned
    refine ⟨_, rfl, ?_⟩
    rw [Int64.toInt_ofInt_of_le (by omega) (by omega), RelocType.fieldBits]
    simp only [RelocType.rule, FieldRule.inWord, FieldPart.select, e16, UInt16.toNat_toUInt64,
      UInt64.toNat_toUInt32, UInt64.toNat_ofNat']
    omega
  · have hlt := (highHalf c.toUInt64.toUInt32).toNat_lt
    refine ⟨_, rfl, ?_⟩
    rw [Int64.toInt_ofNat_of_lt (by omega), RelocType.fieldBits]
    simp only [RelocType.rule, FieldRule.inWord, FieldPart.select, e16, UInt16.toNat_toUInt64,
      UInt64.toNat_toUInt32, UInt64.toNat_ofNat']
    omega

/-- The relocations of the halves of an address. -/
theorem half_relocation {cls : OperandClass} (hcls : cls = .simm16 ∨ cls = .uimm16) {m : Marker}
    (hm : m ∈ [Marker.lo, .hi]) (op : Opcode) :
    ∃ kind ty, fixupKind? op cls m = some kind ∧ kind.relocType? = some ty ∧
      (m, ty) ∈ [(.lo, .lo16), (.hi, .hi16)] := by
  simp only [List.mem_cons, List.not_mem_nil, or_false] at hm
  rcases hm with rfl | rfl
  · exact ⟨.lo16, .lo16, by rcases hcls with rfl | rfl <;> rfl, rfl, by simp⟩
  · exact ⟨.hi16, .hi16, by rcases hcls with rfl | rfl <;> rfl, rfl, by simp⟩

theorem half_rule {m : Marker} {ty : RelocType} (h : (m, ty) ∈ [(.lo, .lo16), (.hi, .hi16)]) :
    ty.rule.bitOffset = 0 ∧ ty.rule.bitWidth = 16 ∧ ty ∉ [.none, .abs32, .abs64] ∧
      ∀ value, ty.Fits value := by
  simp only [List.mem_cons, Prod.mk.injEq, List.not_mem_nil, or_false] at h
  rcases h with ⟨rfl, rfl⟩ | ⟨rfl, rfl⟩ <;> simp [RelocType.rule, FieldRule.inWord, RelocType.Fits]

theorem immediateBits_half {m : Marker} {ty : RelocType} {cls : OperandClass}
    (hcls : cls = .simm16 ∨ cls = .uimm16) (h : (m, ty) ∈ [(.lo, .lo16), (.hi, .hi16)]) (c : Int64) :
    ∃ k, m.fold? c = some k ∧ (immediateBits cls k).toNat % capacity cls.width =
      (ty.fieldBits c.toUInt64).toUInt32.toNat % capacity cls.width := by
  obtain ⟨k, hfold, hhalf⟩ := fold_half h c
  have himm := immediateBits_mod cls k
  refine ⟨k, hfold, ?_⟩
  rcases hcls with rfl | rfl <;> exact Int.natCast_inj.mp (himm.trans hhalf)

/-! ## The two ways give the same word -/

section Word

variable {op : Opcode} {l : Layout} {pre post : List Slot} {slot : Slot}
  {before after : List Operand}

/-- Every field but a register's starts at the lowest bit. -/
theorem Opcode.immediate_shift (h : op.layout? = some l) :
    ∀ s ∈ l.slots, s.cls ≠ .reg → s.shift = 0 := by
  cases op <;> cases h <;> decide

theorem RelocType.fills_slot (hl : op.layout? = some l) (hslot : slot ∈ l.slots)
    (hcls : slot.cls ≠ .reg) {ty : RelocType} (hoffset : ty.rule.bitOffset = 0)
    (hwidth : ty.rule.bitWidth = slot.cls.width) (hword : ty ∉ [.none, .abs32, .abs64]) :
    ty.Fills slot where
  offset := hoffset.trans (Opcode.immediate_shift hl slot hslot hcls).symm
  width := hwidth.trans (Opcode.slot_bounds hl slot hslot).2.symm
  inWord := hword

/-- An immediate with the bits that a relocation writes gives the word that the relocation makes. -/
theorem encode_imm_filled (hl : op.layout? = some l) (hslots : l.slots = pre ++ slot :: post)
    (hbefore : List.Forall₂ Operand.Direct pre before)
    (hafter : List.Forall₂ Operand.Direct post after) (hcls : slot.cls ≠ .reg) {ty : RelocType}
    (hfills : ty.Fills slot) {v : Int64} {value : UInt64} (hfits : ty.Fits value.toInt64.toInt)
    (hbits : (immediateBits slot.cls v).toNat % capacity slot.cls.width =
      (ty.fieldBits value).toUInt32.toNat % capacity slot.cls.width) :
    ∃ word, (Inst.mk op (before ++ .imm v :: after)).encode = .ok (word, []) ∧
      ∀ e kind, e.refers?.isSome → fixupKind? op slot.cls e.marker = some kind →
        kind.relocType? = some ty →
        (Inst.mk op (before ++ .expr e :: after)).FillsTo value word := by
  have hmem : slot ∈ l.slots := hslots ▸ List.mem_append_right _ List.mem_cons_self
  obtain ⟨hbounds, hwidth⟩ := Opcode.slot_bounds hl slot hmem
  obtain ⟨rest, hrest, hencode⟩ := encode_in_slot hl hslots hbefore hafter
  have hsame : slot.insert (immediateBits slot.cls v) =
      slot.insert (ty.fieldBits value).toUInt32 :=
    Slot.insert_congr (by omega) (by rw [hwidth, hbits])
  refine ⟨rest ||| slot.insert (immediateBits slot.cls v), hencode (.imm v) hcls, ?_⟩
  intro e kind hrefers hkind hty
  have hsuits : (Operand.expr e).Suits op slot := ⟨hcls, hrefers, by rw [hkind]; rfl⟩
  refine ⟨rest, ⟨0, e, kind⟩, ty, ?_, hty, ?_⟩
  · rw [hencode (.expr e) hsuits, Operand.field, Slot.insert_zero, UInt32.or_zero, Operand.fixup?,
      hkind]
    rfl
  · rw [hsame]
    exact hfills.patch hrest hfits

/-- Numbers and filled fields agree. In the slot of a branch, call or jump target, a constant passes
the check of source text exactly if it is a multiple of four and the relocation of a symbol there
accepts it; then it gives the word that a symbol gives when its field is filled with that value. In
the slot of a 16-bit immediate, a half of a constant gives the word that this half of a symbol gives
when its field is filled with the constant. -/
theorem constant_eq_filled_field (hl : op.layout? = some l) (hslots : l.slots = pre ++ slot :: post)
    (hbefore : List.Forall₂ Operand.Direct pre before)
    (hafter : List.Forall₂ Operand.Direct post after) :
    (slot.cls.inWords = true →
      ∃ kind ty, fixupKind? op slot.cls .none = some kind ∧ kind.relocType? = some ty ∧
        ∀ v : Int64,
          (Source.fitsField slot.cls v = true ↔
            v.toInt % 4 = 0 ∧ ∃ field, ty.rule.fieldValue v.toUInt64 = .ok field) ∧
          (Source.fitsField slot.cls v = true →
            ∃ word, (Inst.mk op (before ++ .imm v :: after)).encode = .ok (word, []) ∧
              ∀ name, (Inst.mk op (before ++ .expr (.sym name) :: after)).FillsTo
                v.toUInt64 word)) ∧
    (slot.cls = .simm16 ∨ slot.cls = .uimm16 →
      ∀ m ∈ [Marker.lo, .hi], ∀ c : Int64,
        ∃ k word, (Expr.marked m (.const c)).constant? = some k ∧
          (Inst.mk op (before ++ .imm k :: after)).encode = .ok (word, []) ∧
          ∀ name, (Inst.mk op (before ++ .expr (.marked m (.sym name)) :: after)).FillsTo
            c.toUInt64 word) := by
  have hmem : slot ∈ l.slots := hslots ▸ List.mem_append_right _ List.mem_cons_self
  refine ⟨fun hcls => ?_, fun hcls m hm c => ?_⟩
  · obtain ⟨kind, ty, hkind, hty, hpair⟩ := target_relocation hcls op
    obtain ⟨hoffset, hwidth, -, hword⟩ := target_rule hpair
    have hne : slot.cls ≠ .reg := by
      intro hreg
      rw [hreg] at hcls
      cases hcls
    have hrange := fitsField_iff_accepted hpair
    refine ⟨kind, ty, hkind, hty, fun v => ⟨hrange v, fun hfit => ?_⟩⟩
    have hfits := (ty.fieldValue_isOk_iff v.toUInt64).mp ((hrange v).mp hfit).2
    obtain ⟨word, hencode, hfilled⟩ := encode_imm_filled hl hslots hbefore hafter hne
      (RelocType.fills_slot hl hmem hne hoffset hwidth hword) hfits
      (immediateBits_target hcls hpair v)
    exact ⟨word, hencode, fun name => hfilled (.sym name) kind rfl hkind hty⟩
  · obtain ⟨kind, ty, hkind, hty, hpair⟩ := half_relocation hcls hm op
    obtain ⟨hoffset, hwidth, hword, hfits⟩ := half_rule hpair
    obtain ⟨hne, hwidth'⟩ : slot.cls ≠ .reg ∧ ty.rule.bitWidth = slot.cls.width := by
      rcases hcls with hcls | hcls <;> rw [hcls] <;> exact ⟨nofun, hwidth⟩
    obtain ⟨k, hfold, hbits⟩ := immediateBits_half hcls hpair c
    obtain ⟨word, hencode, hfilled⟩ := encode_imm_filled hl hslots hbefore hafter hne
      (RelocType.fills_slot hl hmem hne hoffset hwidth' hword) (hfits _) hbits
    refine ⟨k, word, hfold, hencode, fun name => hfilled (.marked m (.sym name)) kind ?_ hkind hty⟩
    have hmarker : m ≠ .invalid := by
      rintro rfl
      simp at hm
    rw [Expr.refers?, if_neg hmarker]
    rfl

end Word

/-- A branch backwards, and the high half of an address whose low half counts as negative. -/
theorem constant_eq_filled_field_backAndHigh :
    (∃ word, (Inst.mk .bnez [.reg (.ofBits 9), .imm (-8)]).encode = .ok (word, []) ∧
      ∀ name, (Inst.mk .bnez [.reg (.ofBits 9), .expr (.sym name)]).FillsTo
        (Int64.toUInt64 (-8)) word) ∧
    (∃ word, (Inst.mk .lhi [.reg (.ofBits 9), .imm 0x1235]).encode = .ok (word, []) ∧
      ∀ name, (Inst.mk .lhi [.reg (.ofBits 9), .expr (.marked .hi (.sym name))]).FillsTo
        (Int64.toUInt64 0x12348000) word) := by
  constructor
  · have hslots : (Layout.branch 0x05).slots = [Layout.rs1] ++ ⟨0, 16, .branch⟩ :: [] := rfl
    have hregs : List.Forall₂ Operand.Direct [Layout.rs1] [.reg (.ofBits 9)] := .cons rfl .nil
    have hlayout : Opcode.bnez.layout? = some (.branch 0x05) := rfl
    obtain ⟨_, _, -, -, h⟩ := (constant_eq_filled_field hlayout hslots hregs .nil).1 rfl
    exact (h (-8)).2 (by decide)
  · have hslots : (Layout.highImm 0x0f).slots = [Layout.rdImm] ++ Layout.uimm16 :: [] := rfl
    have hregs : List.Forall₂ Operand.Direct [Layout.rdImm] [.reg (.ofBits 9)] := .cons rfl .nil
    have hlayout : Opcode.lhi.layout? = some (.highImm 0x0f) := rfl
    obtain ⟨k, word, hfold, h⟩ := (constant_eq_filled_field hlayout hslots hregs .nil).2 (.inr rfl)
      .hi (by decide) 0x12348000
    obtain rfl : 0x1235 = k := Option.some.inj hfold
    exact ⟨word, h⟩

end Dlx
