import Dlx.Proofs.Call.Acceptance
import Dlx.Proofs.Decoding

/-!
# Immediates that fit

The encoder cuts an immediate to its field without a word, so whoever makes instructions has to see
to it that nothing is cut. For calls this rests on two checks. The frame fits an immediate, and every
slot of the stack area lies within the frame, so every store does as well; this includes the second
word that a pair of registers puts behind the first. Every offset that is loaded from is checked by
itself, after it has been moved along with the stack pointer.

Results:
* `exact_argSequences`, `exact_sequence`: the stores and the moves of a call, one argument and one
  move at a time.
* `lowered_code_encodes_exactly`: what a call or a return emits is encoded as it stands.
-/
namespace Dlx

/-- The instruction is encoded without a fixup, its word is decoded to the instruction again, and its
immediates are numbers of 16 bits with sign. -/
structure Inst.Exact (i : Inst) : Prop where
  decodes : ∃ w, i.encode = .ok (w, []) ∧ decode w = .ok i
  fits : ∀ v, .imm v ∈ i.operands → -0x8000 ≤ v.toInt ∧ v.toInt ≤ 0x7fff

/-- An instruction without symbols whose immediates pass the check of constants in source text comes
back from its word. -/
theorem decode_encode_of_fits {op : Opcode} {l : Layout} (hl : op.layout? = some l)
    {operands : List Operand} (h : List.Forall₂ Operand.Direct l.slots operands)
    (hfits : List.Forall₂ (fun s o => ∀ v, o = .imm v → Source.fitsField s.cls v = true)
      l.slots operands) :
    ∃ w, (Inst.mk op operands).encode = .ok (w, []) ∧ decode w = .ok ⟨op, operands⟩ := by
  obtain ⟨w, hencode, hdecode⟩ := decode_encode_direct hl h
  rw [(zipWith_represented_eq_iff h).mpr hfits] at hdecode
  exact ⟨w, hencode, hdecode⟩

theorem exact_regImm {op : Opcode} {primary : Nat} (hl : op.layout? = some (.signedImm primary))
    (rd rs : Reg) {v : Int64} (hv : -0x8000 ≤ v.toInt ∧ v.toInt ≤ 0x7fff) :
    (Inst.regImm op rd rs v).Exact where
  decodes := by
    refine decode_encode_of_fits hl (.cons rfl (.cons rfl (.cons nofun .nil)))
      (.cons nofun (.cons nofun (.cons ?_ .nil)))
    rintro _ ⟨⟩
    change Source.fitsField .simm16 v = true
    simpa [Source.fitsField] using hv
  fits := by
    simp only [Inst.regImm, List.mem_cons, reduceCtorEq, Operand.imm.injEq, List.not_mem_nil,
      or_false, false_or]
    rintro _ rfl
    exact hv

theorem exact_regImm_ofInt {op : Opcode} {primary : Nat}
    (hl : op.layout? = some (.signedImm primary)) (rd rs : Reg) {v : Int}
    (hv : -0x8000 ≤ v ∧ v ≤ 0x7fff) : (Inst.regImm op rd rs (Int64.ofInt v)).Exact := by
  refine exact_regImm hl rd rs ?_
  rwa [Int64.toInt_ofInt_of_le (by omega) (by omega)]

theorem exact_regImm_ofNat {op : Opcode} {primary : Nat}
    (hl : op.layout? = some (.signedImm primary)) (rd rs : Reg) {n : Nat} (hn : n ≤ 0x7fff) :
    (Inst.regImm op rd rs (Int64.ofNat n)).Exact := by
  rw [← Int64.ofInt_eq_ofNat]
  exact exact_regImm_ofInt hl rd rs (by omega)

theorem exact_copy (rd rs : Reg) : (Inst.copy rd rs).Exact :=
  exact_regImm rfl rd rs (by decide)

theorem exact_jumpReg (r : Reg) : (Inst.mk .jr [.reg r]).Exact where
  decodes := decode_encode_of_fits (l := .regJump 0x12) rfl (.cons rfl .nil) (.cons nofun .nil)
  fits := by simp

/-! ## Moves -/

namespace Move

/-- What the move loads from is at an offset that fits an immediate. -/
def InReach (mv : Move) : Prop :=
  ∀ base offset, mv.src = .load base offset → -0x8000 ≤ offset.toInt ∧ offset.toInt ≤ 0x7fff

theorem inReach_copy (dst src : Reg) : (copy dst src).InReach := nofun

theorem InReach.exact {mv : Move} (h : mv.InReach) : mv.inst.Exact := by
  obtain ⟨dst, r | ⟨base, offset⟩⟩ := mv
  · exact exact_copy dst r
  · exact exact_regImm rfl dst base (h base offset rfl)

/-- A move that reads a copy loads from the same offset. -/
theorem InReach.replaceRead {mv : Move} (h : mv.InReach) (old new : Reg) :
    (mv.replaceRead old new).InReach := by
  obtain ⟨dst, r | ⟨base, offset⟩⟩ := mv
  · unfold Move.replaceRead
    split
    · exact inReach_copy dst new
    · exact h
  · unfold Move.replaceRead
    split
    · rintro _ _ ⟨⟩
      exact h base offset rfl
    · exact h

theorem exact_order {scratch : Reg} {fuel : Nat} {moves : List Move} {is : List Inst}
    (hmoves : ∀ mv ∈ moves, mv.InReach) (h : order scratch fuel moves = some is) :
    ∀ i ∈ is, i.Exact := by
  induction fuel generalizing moves is with
  | zero =>
    cases h
    simp
  | succ fuel ih =>
    cases moves with
    | nil =>
      cases h
      simp
    | cons mv rest =>
      rw [order] at h
      split at h
      · next ready others hpick =>
        obtain ⟨hperm, -⟩ := pickReady_eq_some hpick
        obtain ⟨hready, hothers⟩ := List.forall_mem_cons.mp fun x hx =>
          hmoves x (hperm.mem_iff.mp hx)
        obtain ⟨more, hmore, rfl⟩ := Option.map_eq_some_iff.mp h
        exact List.forall_mem_cons.mpr ⟨hready.exact, ih hothers hmore⟩
      · split at h
        · cases h
        · obtain ⟨hfirst, hrest⟩ := List.forall_mem_cons.mp hmoves
          obtain ⟨more, hmore, rfl⟩ := Option.map_eq_some_iff.mp h
          refine List.forall_mem_cons.mpr ⟨exact_copy _ _, List.forall_mem_cons.mpr
            ⟨(hfirst.replaceRead _ _).exact, ih ?_ hmore⟩⟩
          rw [List.forall_mem_map]
          exact fun x hx => (hrest x hx).replaceRead _ _

theorem exact_sequence {scratch : Reg} {moves : List Move} {is : List Inst}
    (hmoves : ∀ mv ∈ moves, mv.InReach) (h : sequence scratch moves = some is) :
    ∀ i ∈ is, i.Exact :=
  exact_order (fun mv hmv => hmoves mv (List.mem_of_mem_filter hmv)) h

end Move

/-! ## Stores -/

section Stores

variable {roles : RegisterRoles} {frame : Nat}

theorem inReach_aggregateLoads {base : Reg} {offset : Int} {regs : List Reg} {moves : List Move}
    (h : aggregateLoads frame base offset regs = .ok moves) : ∀ mv ∈ moves, mv.InReach := by
  induction regs generalizing offset moves with
  | nil =>
    cases h
    simp
  | cons r rest ih =>
    simp only [aggregateLoads, Except.bind_eq_ok_iff, imm16_eq_ok_iff] at h
    obtain ⟨_, ⟨hfits, rfl⟩, more, hmore, hout⟩ := h
    cases hout
    refine List.forall_mem_cons.mpr ⟨?_, ih hmore⟩
    rintro _ _ ⟨⟩
    rwa [Int64.toInt_ofInt_of_le (by omega) (by omega)]

theorem exact_copyPieces {load store : Opcode} {loadBits storeBits size count dst : Nat}
    {base : Reg} {src : Int} {is : List Inst}
    (h : copyPieces roles frame load store size base count src dst = .ok is)
    (hload : load.layout? = some (.signedImm loadBits))
    (hstore : store.layout? = some (.signedImm storeBits)) (hsize : 0 < size)
    (hslot : dst + size * count ≤ 0x7fff) : ∀ i ∈ is, i.Exact := by
  induction count generalizing src dst is with
  | zero =>
    cases h
    simp
  | succ count ih =>
    simp only [copyPieces, copyPiece, Except.bind_eq_ok_iff, imm16_eq_ok_iff] at h
    obtain ⟨_, ⟨_, ⟨hfits, rfl⟩, hpiece⟩, rest, hrest, hout⟩ := h
    cases hpiece
    cases hout
    rw [Nat.mul_succ] at hslot
    refine List.forall_mem_cons.mpr ⟨exact_regImm_ofInt hload _ _ hfits, List.forall_mem_cons.mpr
      ⟨exact_regImm_ofNat hstore _ _ (by omega), ih hrest (by omega)⟩⟩

theorem exact_copyToStack {base : Reg} {src : Int} {dst size : Nat} {is : List Inst}
    (h : copyToStack roles frame base src dst size = .ok is) (hslot : dst + size ≤ 0x7fff) :
    ∀ i ∈ is, i.Exact := by
  simp only [copyToStack, Except.bind_eq_ok_iff] at h
  obtain ⟨words, hwords, rest, hrest, hout⟩ := h
  cases hout
  exact List.forall_mem_append.mpr
    ⟨exact_copyPieces hwords rfl rfl (by decide) (by omega),
      exact_copyPieces hrest rfl rfl (by decide) (by omega)⟩

/-- A stack slot holds at least a word, so the second word of a pair still starts within the frame,
even if the slot has no room for it. -/
theorem exact_argSequence {index : Nat} {holder : Holder} {loc : Location} {stores : List Inst}
    {moves : List Move} (h : argSequence roles frame index holder loc = .ok (stores, moves))
    (hframe : frame ≤ 0x7fff) (hslot : loc.stackOffset + loc.stackSize ≤ frame)
    (hword : ∀ offset size, loc = .stack offset size → 4 ≤ size) :
    (∀ i ∈ stores, i.Exact) ∧ ∀ mv ∈ moves, mv.InReach := by
  unfold argSequence at h
  split at h
  · cases h
    simp [Move.inReach_copy]
  · cases h
    simp [Move.inReach_copy]
  · next offset size src =>
    cases h
    have := hword offset size rfl
    simp only [Location.stackOffset, Location.stackSize] at hslot
    refine ⟨List.forall_mem_singleton.mpr ?_, by simp⟩
    exact exact_regImm_ofNat rfl src roles.sp (by omega)
  · next offset size lo hi =>
    cases h
    have := hword offset size rfl
    simp only [Location.stackOffset, Location.stackSize] at hslot
    refine ⟨List.forall_mem_cons.mpr ⟨?_, List.forall_mem_singleton.mpr ?_⟩, by simp⟩
    · exact exact_regImm_ofNat rfl lo roles.sp (by omega)
    · exact exact_regImm_ofNat rfl hi roles.sp (by omega)
  · simp only [Except.bind_eq_ok_iff] at h
    obtain ⟨loads, hloads, copied, hcopied, hout⟩ := h
    cases hout
    exact ⟨exact_copyToStack hcopied (Nat.le_trans hslot hframe), inReach_aggregateLoads hloads⟩
  all_goals cases h

theorem exact_argSequences {index : Nat} {pairs : List (Holder × Location)} {stores : List Inst}
    {moves : List Move} (h : argSequences roles frame index pairs = .ok (stores, moves))
    (hframe : frame ≤ 0x7fff) (hslots : ∀ p ∈ pairs, p.2.stackOffset + p.2.stackSize ≤ frame)
    (hwords : ∀ p ∈ pairs, ∀ offset size, p.2 = .stack offset size → 4 ≤ size) :
    (∀ i ∈ stores, i.Exact) ∧ ∀ mv ∈ moves, mv.InReach := by
  induction pairs generalizing index stores moves with
  | nil =>
    cases h
    simp
  | cons p rest ih =>
    simp only [argSequences, Except.bind_eq_ok_iff] at h
    obtain ⟨⟨stores₁, moves₁⟩, h₁, ⟨stores₂, moves₂⟩, h₂, hout⟩ := h
    cases hout
    rw [List.forall_mem_cons] at hslots hwords
    obtain ⟨hstores, hmoves⟩ := exact_argSequence h₁ hframe hslots.1 hwords.1
    obtain ⟨hmoreStores, hmoreMoves⟩ := ih h₂ hslots.2 hwords.2
    exact ⟨List.forall_mem_append.mpr ⟨hstores, hmoreStores⟩,
      List.forall_mem_append.mpr ⟨hmoves, hmoreMoves⟩⟩

theorem exact_adjustStack {amount : Int} (h : -0x8000 ≤ amount ∧ amount ≤ 0x7fff) :
    ∀ i ∈ adjustStack roles amount, i.Exact := by
  unfold adjustStack
  split
  · simp
  · simpa using exact_regImm_ofInt rfl roles.sp roles.sp h

end Stores

/-! ## Calls and returns -/

/-- Only a supported convention has a call. -/
theorem supported_of_callSequence {target : CallTarget} {cc : Convention} {callee : String}
    {args : List HeldArgument} {is : List Inst} (h : callSequence target cc callee args = .ok is) :
    cc = .c ∨ cc = .fast := by
  cases cc with
  | c => exact .inl rfl
  | fast => exact .inr rfl
  | other id => cases h

/-- A value on the stack has a slot of at least a word. -/
theorem LaidOut.word_le_stackSize {args : List HeldArgument} {layout : CallLayout} {frame : Nat}
    (h : LaidOut args layout frame) {loc : Location} (hloc : loc ∈ layout.locations) :
    ∀ offset size, loc = .stack offset size → 4 ≤ size := by
  rintro offset size rfl
  obtain ⟨i, hi, hget⟩ := List.getElem_of_mem hloc
  have hsuits := h.suits.get (h.suits.length_eq ▸ hi) hi
  simp only [List.get_eq_getElem, hget] at hsuits
  generalize HeldArgument.value _ = value at hsuits
  cases value with
  | value t =>
    simp only [Location.Suits] at hsuits
    split at hsuits <;> omega
  | aggregate => exact hsuits.elim

theorem inReach_allResultMoves {index : Nat} {pairs : List (Holder × Location)} {moves : List Move}
    (h : allResultMoves index pairs = .ok moves) : ∀ mv ∈ moves, mv.InReach := by
  induction pairs generalizing index moves with
  | nil =>
    cases h
    simp
  | cons p rest ih =>
    simp only [allResultMoves, Except.bind_eq_ok_iff] at h
    obtain ⟨first, hfirst, more, hmore, hout⟩ := h
    cases hout
    refine List.forall_mem_append.mpr ⟨?_, ih hmore⟩
    unfold resultMoves at hfirst
    split at hfirst <;> cases hfirst <;> simp [Move.inReach_copy]

/-- What a call or a return emits never relies on the encoder to cut a number. Every instruction is
encoded without a fixup, its immediates fit 16 bits with sign, and its word is decoded to the same
instruction. The one exception is the jump of a call, which has a single fixup, for the distance to
the callee. -/
theorem lowered_code_encodes_exactly :
    (∀ (cc : Convention) (callee : String) (args : List HeldArgument) (is : List Inst),
      callSequence ⟨Target.dlx.roles, Target.dlx.stackAlign⟩ cc callee args = .ok is →
      ∃ before after w, is = before ++ ⟨.jal, [.expr (.sym callee)]⟩ :: after ∧
        (∀ i ∈ before ++ after, i.Exact) ∧
        (Inst.mk .jal [.expr (.sym callee)]).encode =
          .ok (w, [⟨0, .sym callee, .callPc26⟩])) ∧
    (∀ (cc : Convention) (values : List (ValueType × Holder)) (is : List Inst),
      returnSequence ⟨Target.dlx.roles, Target.dlx.stackAlign⟩ cc values = .ok is →
      ∀ i ∈ is, i.Exact) := by
  refine ⟨fun cc callee args is hcall => ?_, fun cc values is hreturn => ?_⟩
  · have hcc := supported_of_callSequence hcall
    obtain ⟨layout, -, hlayout, -⟩ := allPlaced_callLayout Target.dlx.roles (args.map (·.value)) hcc
      (by decide) (by decide)
    have hlaid := laidOut_callLayout hcc hlayout rfl
    obtain ⟨hbound, -, stores, moves, sequence, hargs, hseq, rfl⟩ :=
      standardCall_eq_ok hlayout rfl hcall
    obtain ⟨hstores, hmoves⟩ := exact_argSequences hargs hbound
      (fun p hp => hlaid.slots p.2 (List.of_mem_zip hp).2)
      (fun p hp => hlaid.word_le_stackSize (List.of_mem_zip hp).2)
    refine ⟨_, _, _, rfl, ?_, rfl⟩
    simp only [List.forall_mem_append]
    exact ⟨⟨⟨exact_adjustStack (by omega), hstores⟩, Move.exact_sequence hmoves hseq⟩,
      exact_adjustStack (by omega)⟩
  · simp only [returnSequence, Except.bind_eq_ok_iff] at hreturn
    obtain ⟨locs, -, moves, hmoves, sequence, hsequence, his⟩ := hreturn
    cases his
    have hseq := sequenceMoves_eq_ok_iff.mp hsequence
    exact List.forall_mem_append.mpr ⟨Move.exact_sequence (inReach_allResultMoves hmoves) hseq,
      List.forall_mem_singleton.mpr (exact_jumpReg _)⟩

/-- Offsets at both ends of the range: a copy to the stack that starts with the lowest number, and one
that ends with the highest once the stack pointer has moved. -/
def farAggregates : List HeldArgument :=
  [⟨.aggregate 18 4, .memory (.ofBits 8) (-0x8000)⟩,
    ⟨.aggregate 13 4, .memory (.ofBits 2) (0x7fff - 32 - 12)⟩]

theorem lowered_code_encodes_exactly_farAggregates :
    ∃ is, callSequence ⟨Target.dlx.roles, Target.dlx.stackAlign⟩ .c "f" farAggregates = .ok is ∧
      .regImm .lw (.ofBits 10) (.ofBits 8) (-0x8000) ∈ is ∧
      (Inst.regImm .lw (.ofBits 10) (.ofBits 8) (-0x8000)).Exact ∧
      .regImm .lbu (.ofBits 1) (.ofBits 2) 0x7fff ∈ is ∧
      (Inst.regImm .lbu (.ofBits 1) (.ofBits 2) 0x7fff).Exact := by
  obtain ⟨is, hcall, hlow, hhigh⟩ : ∃ is,
      callSequence ⟨Target.dlx.roles, Target.dlx.stackAlign⟩ .c "f" farAggregates = .ok is ∧
        .regImm .lw (.ofBits 10) (.ofBits 8) (-0x8000) ∈ is ∧
        .regImm .lbu (.ofBits 1) (.ofBits 2) 0x7fff ∈ is := ⟨_, rfl, by decide, by decide⟩
  obtain ⟨before, after, -, rfl, hexact, -⟩ :=
    lowered_code_encodes_exactly.1 .c "f" farAggregates is hcall
  have hother : ∀ i ∈ before ++ ⟨.jal, [.expr (.sym "f")]⟩ :: after, i.opcode ≠ .jal →
      i.Exact := by
    intro i hi hne
    refine hexact i ?_
    rcases List.mem_append.mp hi with hi | hi
    · exact List.mem_append_left _ hi
    · rcases List.mem_cons.mp hi with rfl | hi
      · exact absurd rfl hne
      · exact List.mem_append_right _ hi
  exact ⟨_, hcall, hlow, hother _ hlow (by decide), hhigh, hother _ hhigh (by decide)⟩

end Dlx
