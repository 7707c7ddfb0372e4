import Dlx.Proofs.Assembly.Finishing
import Dlx.Proofs.Encoding
import Dlx.Proofs.References
import Dlx.Proofs.Source.Names

/-!
# Errors that a source text can cause

Some errors of the assembler tell what is wrong with the source. The others would tell that its
parts disagree: a mnemonic of an opcode without a layout, an instruction that was read and cannot be
encoded, a fixup that does not lie in its section, a kind of fixup without a rule. None of these can
be caused by a source text.

Results:
* `Source.readLines_ne_noEncoding`: every opcode that is read has a layout.
* `Source.encode_readInst`: every instruction that is read can be encoded.
* `Assembly.blamesSource_finish`: finishing an assembly fails for the values of its fixups only.
* `source_errors_only`: assembling a text fails with an error of the first sort, if it fails.
-/
namespace Dlx

/-! ## Operands that were read can be encoded -/

namespace Source

/-- What may stand in a slot refers to a symbol, under a marker that the slot has a fixup for. -/
theorem suits_of_fitsSlot {op : Opcode} {slot : Slot} {e : Expr}
    (h : fitsSlot slot.cls (.expr e) = true) : (Operand.expr e).Suits op slot := by
  cases hr : e.refers? with
  | none =>
    cases hc : slot.cls <;>
      simp [hc, fitsSlot, Operand.isLowHalf, Operand.isHighHalf, Operand.isPlainSymbol,
        Operand.isCallTarget, Operand.marker?, Operand.refers?, hr] at h
  | some r =>
    have hm := Expr.marker_of_refers? hr
    refine ⟨?_, by rw [hr]; rfl, ?_⟩
    · intro hc
      simp [hc, fitsSlot] at h
    · rw [← hm]
      clear hm
      cases hc : slot.cls <;> cases hmarker : r.marker <;>
        simp_all [fitsSlot, Operand.isLowHalf, Operand.isHighHalf, Operand.isPlainSymbol,
          Operand.isCallTarget, Operand.marker?, Operand.refers?, fixupKind?, bareFixupKind?]

theorem suits_operandFor {op : Opcode} {slot : Slot} (hc : slot.cls ≠ .reg) {e : Expr} {o : Operand}
    (h : operandFor slot.cls e = .ok o) : o.Suits op slot := by
  unfold operandFor at h
  split at h
  · split at h
    · cases h
      exact hc
    · cases h
  · split at h
    · next hfits =>
      cases h
      exact suits_of_fitsSlot hfits
    · cases h

theorem suits_matchOperand {op : Opcode} {index : Nat} {slot : Slot} {w : Written} {o : Operand}
    (h : matchOperand op index slot w = .ok o) : o.Suits op slot := by
  unfold matchOperand at h
  split at h
  · next hc =>
    cases h
    exact hc
  · cases h
  · next hc =>
    refine suits_operandFor ?_ (Except.mapError_eq_ok_iff.mp h)
    intro hreg
    exact hc hreg
  · cases h

theorem suits_matchOperands {op : Opcode} {index : Nat} {slots : List Slot} {ws : List Written}
    {operands : List Operand} (hlen : ws.length = slots.length)
    (h : matchOperands op index (slots.zip ws) = .ok operands) :
    operands.length = slots.length ∧ ∀ x ∈ slots.zip operands, x.2.Suits op x.1 := by
  induction slots generalizing index ws operands with
  | nil =>
    cases h
    simp
  | cons slot slots ih =>
    cases ws with
    | nil => cases hlen
    | cons w ws =>
      simp only [List.zip_cons_cons, matchOperands, Except.bind_eq_ok_iff] at h
      obtain ⟨o, ho, os, hos, h⟩ := h
      cases h
      obtain ⟨hcount, hall⟩ := ih (Nat.succ.inj hlen) hos
      refine ⟨congrArg Nat.succ hcount, ?_⟩
      rw [List.zip_cons_cons, List.forall_mem_cons]
      exact ⟨suits_matchOperand ho, hall⟩

theorem encode_matchInst {op : Opcode} {layout : Layout} (hl : op.layout? = some layout)
    {ws : List Written} {i : Inst} (h : matchInst op layout ws = .ok i) :
    ∃ word fixups, i.encode = .ok (word, fixups) := by
  simp only [matchInst, Except.bind_eq_ok_iff] at h
  obtain ⟨ws', -, h⟩ := h
  split at h
  · next hlen =>
    obtain ⟨operands, hoperands, h⟩ := Except.bind_eq_ok_iff.mp h
    cases h
    obtain ⟨hcount, hall⟩ := suits_matchOperands hlen hoperands
    exact ⟨_, _, Inst.encode_eq_ok_iff.mpr ⟨layout, hl, hcount, hall, rfl⟩⟩
  · cases h

theorem encode_readInst {cs : List Char} {i : Inst} (h : readInst cs = .ok i) :
    ∃ word fixups, i.encode = .ok (word, fixups) := by
  obtain ⟨_, _, _, _, -, -, hl, hmatch⟩ := matchInst_of_readInst h
  exact encode_matchInst hl hmatch

/-! ## Opcodes that were read have a layout -/

theorem readInst_ne_noEncoding (cs : List Char) (op : Opcode) :
    readInst cs ≠ .error (.noEncoding op) := by
  intro h
  unfold readInst at h
  split at h
  · cases h
  · split at h
    · cases h
    · next op' hop =>
      -- mnemonics are looked up among the opcodes that have one
      have hlayout := (Opcode.isSome_layout?_iff op').mpr (List.mem_of_find?_eq_some hop)
      unfold buildInst at h
      split at h
      · next hnone => simp [hnone] at hlayout
      · obtain ⟨_, -, hfault⟩ := Except.mapError_eq_error_iff.mp h
        cases hfault

theorem readLine_ne_noEncoding (cs : List Char) (op : Opcode) :
    readLine cs ≠ .error (.noEncoding op) := by
  intro h
  unfold readLine at h
  dsimp only at h
  split at h
  · cases h
  · obtain ⟨_, -, hfault⟩ := Except.mapError_eq_error_iff.mp (Except.bind_pure_eq_error_iff.mp h)
    cases hfault
  · exact readInst_ne_noEncoding _ op (Except.bind_pure_eq_error_iff.mp h)

theorem readNumberedLine_ne_noEncoding (line : Nat) (cs : List Char) (op : Opcode) :
    readNumberedLine line cs ≠ .error (.noEncoding op) := by
  intro h
  obtain ⟨e, he, heq⟩ := Except.mapError_eq_error_iff.mp h
  cases e with
  | fault f => cases heq
  | noEncoding op' => exact readLine_ne_noEncoding cs op' he

theorem readLines_ne_noEncoding (line : Nat) (lines : List (List Char)) (op : Opcode) :
    readLines line lines ≠ .error (.noEncoding op) := by
  induction lines generalizing line with
  | nil => nofun
  | cons cs rest ih =>
    intro h
    rcases Except.bind_eq_error_iff.mp h with h | ⟨_, -, h⟩
    · exact readNumberedLine_ne_noEncoding line cs op h
    · exact ih (line + 1) (Except.bind_pure_eq_error_iff.mp h)

/-! ## What lines yield -/

/-- A statement that the assembler takes unless it defines a symbol again: its instruction can be
encoded, its values have a size that data can have. -/
def Assemblable : Statement → Prop
  | .inst i => ∃ word fixups, i.encode = .ok (word, fixups)
  | .data size _ => (FixupKind.data? size).isSome
  | _ => True

theorem data?_of_dataSize? {directive : String} {size : Nat} (h : dataSize? directive = some size) :
    (FixupKind.data? size).isSome := by
  unfold dataSize? at h
  split at h <;> cases h <;> rfl

theorem assemblable_readDirective {cs : List Char} {s : Statement} (h : readDirective cs = .ok s) :
    Assemblable s := by
  unfold readDirective at h
  dsimp only at h
  split at h
  case h_1 | h_2 =>
    cases h
    trivial
  case h_3 =>
    split at h <;> cases h
    trivial
  case h_4 | h_5 =>
    split at h <;> cases h
    trivial
  case h_6 =>
    split at h
    · cases h
    · next size hsize =>
      split at h <;> cases h
      exact data?_of_dataSize? hsize

theorem assemblable_readLine {cs : List Char} {statements : List Statement}
    (h : readLine cs = .ok statements) : ∀ s ∈ statements, Assemblable s := by
  unfold readLine at h
  generalize Text.trim (beforeComment cs) = code at h
  have hlabels : ∀ s ∈ (takeLabels code.length code).1.map Statement.label, Assemblable s := by
    intro s hs
    obtain ⟨n, -, rfl⟩ := List.mem_map.mp hs
    trivial
  dsimp only at h
  split at h
  · cases h
    exact hlabels
  · obtain ⟨s, hs, h⟩ := Except.bind_eq_ok_iff.mp h
    cases h
    exact List.forall_mem_append.mpr ⟨hlabels, List.forall_mem_singleton.mpr
      (assemblable_readDirective (Except.mapError_eq_ok_iff.mp hs))⟩
  · obtain ⟨i, hi, h⟩ := Except.bind_eq_ok_iff.mp h
    cases h
    exact List.forall_mem_append.mpr
      ⟨hlabels, List.forall_mem_singleton.mpr (encode_readInst hi)⟩

theorem assemblable_readLines {line : Nat} {lines : List (List Char)} {statements : List Statement}
    (h : readLines line lines = .ok statements) : ∀ s ∈ statements, Assemblable s := by
  induction lines generalizing line statements with
  | nil =>
    cases h
    exact fun s hs => nomatch hs
  | cons cs rest ih =>
    simp only [readLines, Except.bind_eq_ok_iff] at h
    obtain ⟨first, hfirst, more, hmore, h⟩ := h
    cases h
    exact List.forall_mem_append.mpr
      ⟨assemblable_readLine (Except.mapError_eq_ok_iff.mp hfirst), ih hmore⟩

end Source

/-! ## Errors -/

/-- The errors that tell what is wrong with a source. The others would tell that the reader, the
encoder and the patching of fixups do not agree. -/
def AsmError.blamesSource : AsmError → Bool
  | .source (.fault _ _) | .duplicateSymbol _ | .unclassifiable _ | .unsupportedData _
  | .dataOutOfRange _ _ | .symbolDifference _ _ | .patch (.outOfRange _ _) => true
  | .source (.noEncoding _) | .encode _ | .unknownFixupKind _ | .patch _ => false

theorem blamesSource_settle {localPc : Bool} {symbols : SymbolTable} {home : Nat} {f : Fixup}
    {e : AsmError} (h : settle localPc symbols home f = .error e) : e.blamesSource := by
  unfold settle at h
  split at h
  · cases h
    rfl
  · cases h
  · split at h <;> cases h
    rfl
  · split at h
    · split at h <;> cases h
    · cases h

theorem FixupKind.blamesSource_toReloc {kind : FixupKind} {e : AsmError}
    (h : kind.toReloc = .error e) : e.blamesSource := by
  cases kind <;> cases h <;> rfl

theorem blamesSource_patchSmallData {size offset : Nat} {data : Bytes}
    (hin : offset + size ≤ data.length) {v : UInt64} {e : AsmError}
    (h : patchSmallData size data offset v = .error e) : e.blamesSource := by
  simp only [patchSmallData, hin, if_true] at h
  split at h <;> cases h
  rfl

/-- In its section the field of a fixup can be filled with every value of its range. -/
theorem Fixup.blamesSource_patch {f : Fixup} {data : Bytes}
    (hin : f.offset.toNat + f.kind.size ≤ data.length) {v : UInt64} {e : AsmError}
    (h : f.patch v data = .error e) : e.blamesSource := by
  unfold patch at h
  split at h
  · next ty hty =>
    obtain ⟨e', he', rfl⟩ := Except.mapError_eq_error_iff.mp h
    rw [← FixupKind.size_of_relocType? hty] at hin
    rw [RelocType.outOfRange_of_patch (FixupKind.ne_none_of_relocType? hty) hin he']
    rfl
  · next hkind =>
    rw [hkind] at hin
    exact blamesSource_patchSmallData hin h
  · next hkind =>
    rw [hkind] at hin
    exact blamesSource_patchSmallData hin h
  · next hdata1 hdata2 hty =>
    cases hk : f.kind <;> simp_all [FixupKind.relocType?]

namespace Assembly

theorem blamesSource_finishFixup {a : Assembly} {home : Nat} {data : Bytes}
    {relocs : List (Reloc RelocType)} {f : Fixup}
    (hin : f.offset.toNat + f.kind.size ≤ data.length) {e : AsmError}
    (h : a.finishFixup home data relocs f = .error e) : e.blamesSource := by
  unfold finishFixup at h
  rcases Except.bind_eq_error_iff.mp h with h | ⟨outcome, -, h⟩
  · exact blamesSource_settle h
  · cases outcome with
    | settled v => exact f.blamesSource_patch hin (Except.bind_pure_eq_error_iff.mp h)
    | deferred symbol addend =>
      exact FixupKind.blamesSource_toReloc (Except.bind_pure_eq_error_iff.mp h)

theorem blamesSource_finishFixups {a : Assembly} {home : Nat} {fixups : List Fixup} {data : Bytes}
    {relocs : List (Reloc RelocType)}
    (hin : ∀ f ∈ fixups, f.offset.toNat + f.kind.size ≤ data.length) {e : AsmError}
    (h : a.finishFixups home fixups data relocs = .error e) : e.blamesSource := by
  induction fixups generalizing data relocs with
  | nil => cases h
  | cons f rest ih =>
    obtain ⟨hf, hrest⟩ := List.forall_mem_cons.mp hin
    rcases Except.bind_eq_error_iff.mp h with h | ⟨out, hout, h⟩
    · exact blamesSource_finishFixup hf h
    · -- what is patched keeps the length of the data
      obtain ⟨-, rfl⟩ := (finishFixup_eq_ok_iff hf).mp hout
      refine ih ?_ h
      rwa [length_writeAll fun w hw => settledWrite?_within hf (Option.mem_toList.mp hw)]

theorem blamesSource_finishSections {a : Assembly} {home : Nat} {sections : List OpenSection}
    (htidy : ∀ s ∈ sections, s.Tidy) {e : AsmError}
    (h : a.finishSections home sections = .error e) : e.blamesSource := by
  induction sections generalizing home with
  | nil => cases h
  | cons s rest ih =>
    obtain ⟨hs, hrest⟩ := List.forall_mem_cons.mp htidy
    rcases Except.bind_eq_error_iff.mp h with h | ⟨_, -, h⟩
    · exact blamesSource_finishFixups hs.within h
    · exact ih hrest (Except.bind_pure_eq_error_iff.mp h)

theorem blamesSource_finish {a : Assembly} (ha : a.Sound) {e : AsmError} (h : a.finish = .error e) :
    e.blamesSource := by
  exact blamesSource_finishSections ha.tidy (Except.bind_pure_eq_error_iff.mp h)

theorem not_error_values {a : Assembly} {size : Nat} (hsize : (FixupKind.data? size).isSome)
    (es : List Expr) (e : AsmError) : a.values size es ≠ .error e := by
  induction es generalizing a with
  | nil => nofun
  | cons x rest ih =>
    intro h
    rcases Except.bind_eq_error_iff.mp h with h | ⟨b, -, h⟩
    · obtain ⟨kind, hkind⟩ := Option.isSome_iff_exists.mp hsize
      rw [value, hkind] at h
      split at h
      · next hnone => cases hnone
      · split at h <;> cases h
    · exact ih h

theorem blamesSource_statement {a : Assembly} {s : Statement} (hs : Source.Assemblable s)
    {e : AsmError} (h : a.statement s = .error e) : e.blamesSource := by
  cases s with
  | label name =>
    simp only [statement, label] at h
    split at h <;> cases h
    rfl
  | enter name => cases h
  | makeGlobal name => cases h
  | data size es => exact absurd h (not_error_values hs es e)
  | inst i =>
    obtain ⟨word, fixups, hencode⟩ := hs
    simp [statement, inst, hencode] at h

theorem blamesSource_statements {a : Assembly} {program : List Statement}
    (hp : ∀ s ∈ program, Source.Assemblable s) {e : AsmError}
    (h : a.statements program = .error e) : e.blamesSource := by
  induction program generalizing a with
  | nil => cases h
  | cons s rest ih =>
    obtain ⟨hs, hrest⟩ := List.forall_mem_cons.mp hp
    rcases Except.bind_eq_error_iff.mp h with h | ⟨b, -, h⟩
    · exact blamesSource_statement hs h
    · exact ih hrest h

end Assembly

/-- A source text that cannot be assembled has an error of its own: none that comes from an opcode
without a layout, from encoding an instruction, from a kind of fixup without a rule or from a field
outside its section. Every
instruction that a line yields can be encoded, with at most one fixup. -/
theorem source_errors_only (localPc : Bool) (source : String) :
    (∀ e, assemble localPc source = .error e → e.blamesSource) ∧
    ∀ line cs statements i, Source.readNumberedLine line cs = .ok statements →
      .inst i ∈ statements → ∃ word fixups, i.encode = .ok (word, fixups) ∧ fixups.length ≤ 1 := by
  refine ⟨?_, ?_⟩
  · intro e h
    rcases Except.bind_eq_error_iff.mp h with h | ⟨statements, hread, h⟩
    · obtain ⟨e', hread, rfl⟩ := Except.mapError_eq_error_iff.mp h
      cases e' with
      | fault line f => rfl
      | noEncoding op => exact absurd hread (Source.readLines_ne_noEncoding _ _ op)
    · have hall := Source.assemblable_readLines (Except.mapError_eq_ok_iff.mp hread)
      rcases Except.bind_eq_error_iff.mp h with h | ⟨a, ha, h⟩
      · exact Assembly.blamesSource_statements hall h
      · have hsound := (Assembly.statements_reaches ha).sound (Assembly.sound_start localPc)
        exact Assembly.blamesSource_finish hsound h
  · intro line cs statements i hread hi
    obtain ⟨word, fixups, hencode⟩ :=
      Source.assemblable_readLine (Except.mapError_eq_ok_iff.mp hread) (.inst i) hi
    exact ⟨word, fixups, hencode, (Inst.encode_fixups hencode).1⟩

/-- An instruction that asks for a fixup. -/
def lowHalfOfSymbol : Inst :=
  ⟨.addi, [.reg (.ofBits 1), .reg (.ofBits 2), .expr (.marked .lo (.sym "x"))]⟩

theorem source_errors_only_byteOfSymbol :
    assemble true ".byte x" = .error (.unsupportedData 1) ∧
    (AsmError.unsupportedData 1).blamesSource ∧
    Source.readNumberedLine 1 "loop: addi r1, r2, %lo(x)".toList =
      .ok [.label "loop", .inst lowHalfOfSymbol] ∧
    ∃ word fixups, lowHalfOfSymbol.encode = .ok (word, fixups) ∧ fixups.length ≤ 1 := by
  have herror : assemble true ".byte x" = .error (.unsupportedData 1) := by decide +kernel
  have hread : Source.readNumberedLine 1 "loop: addi r1, r2, %lo(x)".toList =
      .ok [.label "loop", .inst lowHalfOfSymbol] := by decide +kernel
  obtain ⟨herrors, hlines⟩ := source_errors_only true ".byte x"
  exact ⟨herror, herrors _ herror, hread, hlines 1 _ _ lowHalfOfSymbol hread (by simp)⟩

end Dlx
