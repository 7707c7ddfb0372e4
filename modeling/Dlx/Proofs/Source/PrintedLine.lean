import Dlx.Proofs.Source.Printed
import Mathlib.Data.List.TakeWhile

/-!
# Reading printed lines

A printed line is a word, a space and its operands. It holds no comment and no label, and nothing of
it is trimmed, so that it is read as the one directive or instruction that it was printed for.

Results:
* `readLine_printed`: printed operands are matched with the layout of their opcode.
* `readLine_decoded`: the text of a decoded instruction is read as that instruction.
* `readLine_data`: a number in a data directive is read back.
-/
namespace Dlx.Source

/-! ## Lines of one word and operands -/

/-- The word that a printed line starts with: letters, in a directive after a period. -/
structure Word (s : String) (c : Char) : Prop where
  head : isLetter c = true ∨ c = '.'
  tail : ∃ cs, s.toList = c :: cs ∧ ∀ d ∈ cs, isLetter d = true

/-- What may stand behind the word. -/
structure Operands (cs : List Char) : Prop where
  mem : ∀ c ∈ cs, isPlain c = true ∨ c = ' ' ∨ c = ','
  head : ∃ d ds, cs = d :: ds ∧ isPlain d = true
  last : ∃ pre t, cs = pre ++ t ∧ t ≠ [] ∧ ∀ c ∈ t, isPlain c = true

theorem operands_plain {t : List Char} (hne : t ≠ []) (ht : ∀ c ∈ t, isPlain c = true) :
    Operands t where
  mem c hc := .inl (ht c hc)
  head := by
    obtain ⟨d, ds, rfl⟩ := List.exists_cons_of_ne_nil hne
    exact ⟨d, ds, rfl, ht d List.mem_cons_self⟩
  last := ⟨[], t, rfl, hne, ht⟩

theorem Operands.cons {t u : List Char} (ht : Operands t) (hu : Operands u) :
    Operands (t ++ ',' :: ' ' :: u) where
  mem c hc := by
    simp only [List.mem_append, List.mem_cons] at hc
    rcases hc with hc | rfl | rfl | hc
    · exact ht.mem c hc
    · exact .inr (.inr rfl)
    · exact .inr (.inl rfl)
    · exact hu.mem c hc
  head := by
    obtain ⟨d, ds, rfl, hd⟩ := ht.head
    exact ⟨d, _, List.cons_append, hd⟩
  last := by
    obtain ⟨pre, v, rfl, hv⟩ := hu.last
    exact ⟨t ++ ',' :: ' ' :: pre, v, by simp, hv⟩

theorem operands_intercalate {ts : List (List Char)} (hne : ts ≠ [])
    (h : ∀ t ∈ ts, t ≠ [] ∧ ∀ c ∈ t, isPlain c = true) :
    Operands ([',', ' '].intercalate ts) := by
  induction ts with
  | nil => exact absurd rfl hne
  | cons t ts ih =>
    obtain ⟨ht, hrest⟩ := List.forall_mem_cons.mp h
    cases ts with
    | nil =>
      rw [List.intercalate_singleton]
      exact operands_plain ht.1 ht.2
    | cons u us =>
      rw [List.intercalate_cons_cons, List.append_assoc]
      exact (operands_plain ht.1 ht.2).cons (ih (List.cons_ne_nil _ _) hrest)

theorem name_word {s : String} {c : Char} (h : Word s c) (rest : List Char) :
    name (s.toList ++ ' ' :: rest) = some (s, ' ' :: rest) := by
  obtain ⟨hc, cs, hcs, hletters⟩ := h
  have hstart : isNameStart c = true := by
    rcases hc with hc | rfl
    · simp [isNameStart, hc]
    · decide
  have hspace : Stops isNameChar (' ' :: rest) := (by decide : isNameChar ' ' = false)
  rw [hcs, name_cons hstart (fun d hd => by simp [isNameChar, isNameStart, hletters d hd]) hspace,
    ← hcs, String.ofList_toList]

/-- Nothing is trimmed off a text that ends with an operand. -/
theorem trim_append {pre t : List Char} (hstart : Stops Text.isBlank (pre ++ t)) (hne : t ≠ [])
    (ht : ∀ c ∈ t, isPlain c = true) : Text.trim (pre ++ t) = pre ++ t := by
  have hend : Stops Text.isBlank (pre ++ t).reverse := by
    rw [List.reverse_append]
    exact stops_append (mt List.reverse_eq_nil_iff.mp hne)
      (fun c hc => isBlank_of_isPlain (ht c (List.mem_reverse.mp hc))) _
  have hdrop {cs : List Char} (h : Stops Text.isBlank cs) : cs.dropWhile Text.isBlank = cs :=
    dropWhile_stops (l := []) (fun _ h => nomatch h) h
  rw [Text.trim, Text.trimStart, hdrop hstart, Text.trimEnd, hdrop hend, List.reverse_reverse]

section Line

variable {s : String} {c : Char} (hs : Word s c) {t : List Char} (ht : Operands t)

include hs ht

theorem mem_word {d : Char} (hd : d ∈ s.toList ++ ' ' :: t) :
    isPlain d = true ∨ d = ' ' ∨ d = ',' ∨ d = '.' := by
  obtain ⟨hc, cs, hcs, hletters⟩ := hs
  rw [hcs, List.mem_append, List.mem_cons, List.mem_cons] at hd
  rcases hd with (rfl | hd) | rfl | hd
  · rcases hc with hc | rfl
    · exact .inl (by simp [isPlain, hc])
    · exact .inr (.inr (.inr rfl))
  · exact .inl (by simp [isPlain, hletters d hd])
  · exact .inr (.inl rfl)
  · rcases ht.mem d hd with hd | rfl | rfl
    · exact .inl hd
    · exact .inr (.inl rfl)
    · exact .inr (.inr (.inl rfl))

/-- Other characters do not stand on the line. -/
theorem notMem_word {d : Char} (h : isPlain d = false) (hother : d ≠ ' ' ∧ d ≠ ',' ∧ d ≠ '.') :
    d ∉ s.toList ++ ' ' :: t := by
  intro hd
  rcases mem_word hs ht hd with hd | hd | hd | hd
  · rw [h] at hd
    cases hd
  · exact hother.1 hd
  · exact hother.2.1 hd
  · exact hother.2.2 hd

theorem beforeComment_word : beforeComment (s.toList ++ ' ' :: t) = s.toList ++ ' ' :: t := by
  have hsemicolon := notMem_word hs ht (d := ';') (by decide) (by decide)
  have hhash := notMem_word hs ht (d := '#') (by decide) (by decide)
  refine List.takeWhile_eq_self_iff.mpr ?_
  intro d hd
  have hne : d ≠ ';' ∧ d ≠ '#' := ⟨fun h => hsemicolon (h ▸ hd), fun h => hhash (h ▸ hd)⟩
  simpa using hne

theorem trim_word : Text.trim (s.toList ++ ' ' :: t) = s.toList ++ ' ' :: t := by
  obtain ⟨hc, cs, hcs, -⟩ := hs
  obtain ⟨pre, u, rfl, hne, hu⟩ := ht.last
  have hblank : Text.isBlank c = false := by
    rcases hc with hc | rfl
    · exact isBlank_of_isPlain (by simp [isPlain, hc])
    · decide
  rw [hcs, ← List.cons_append, ← List.append_assoc]
  exact trim_append hblank hne hu

/-- The operands do not start with a colon. -/
theorem label_word : label (s.toList ++ ' ' :: t) = none := by
  have hname := name_word hs t
  obtain ⟨hc, cs, hcs, -⟩ := hs
  obtain ⟨d, ds, rfl, hd⟩ := ht.head
  have hbounds := isPlain_bounds hd
  have hcolon : d ≠ ':' := by
    rintro rfl
    exact hbounds.2.2.2.1 rfl
  have hstart : skipSpaces (s.toList ++ ' ' :: d :: ds) = s.toList ++ ' ' :: d :: ds := by
    have hspace : Text.isSpace c = false := by
      rcases hc with hc | rfl
      · have hbounds := isPlain_bounds (c := c) (by simp [isPlain, hc])
        exact isSpace_eq_false (by omega)
      · decide
    rw [hcs]
    exact skipSpaces_stops hspace
  have hspace : Stops Text.isSpace (d :: ds) := isSpace_eq_false (by omega)
  have hskip : skipSpaces (' ' :: d :: ds) = d :: ds := skipSpaces_stops hspace
  rw [label, spaced_of_read (hstart.symm ▸ hname), hskip, Option.bind_some]
  simp only [char, hcolon, if_false, Option.map_none]

/-- Such a line has neither a label nor a comment: it is a directive or an instruction. -/
theorem readLine_word :
    readLine (s.toList ++ ' ' :: t) =
      if c = '.' then ((readDirective (s.toList ++ ' ' :: t)).map ([·])).mapError .fault
      else (readInst (s.toList ++ ' ' :: t)).map ([.inst ·]) := by
  have hlabels (fuel : Nat) :
      takeLabels fuel (s.toList ++ ' ' :: t) = ([], s.toList ++ ' ' :: t) := by
    cases fuel with
    | zero => rfl
    | succ fuel => rw [takeLabels, label_word hs ht]
  unfold readLine
  simp only [beforeComment_word hs ht, trim_word hs ht, hlabels, List.map_nil, List.nil_append]
  obtain ⟨-, cs, hcs, -⟩ := hs
  rw [hcs, List.cons_append]
  by_cases hdot : c = '.'
  · subst hdot
    rw [if_pos rfl]
    cases readDirective ('.' :: (cs ++ ' ' :: t)) <;> rfl
  · rw [if_neg hdot]
    split
    · next heq => cases heq
    · next heq => exact absurd (List.cons.inj heq).1 hdot
    · cases readInst (c :: (cs ++ ' ' :: t)) <;> rfl

end Line

/-! ## Instructions -/

/-- The line that is printed for an opcode with operands. -/
def printedLine (op : Opcode) (ts : List (List Char)) : List Char :=
  op.mnemonic.toList ++ ' ' :: [',', ' '].intercalate ts

theorem ofMnemonic?_mnemonic {op : Opcode} (h : op ∈ Opcode.encodable) :
    Opcode.ofMnemonic? (lowerCase op.mnemonic) = some op := by
  have hall : ∀ op ∈ Opcode.encodable,
      Opcode.ofMnemonic? (lowerCase op.mnemonic) = some op := by decide +kernel
  exact hall op h

theorem word_mnemonic {op : Opcode} (h : op ∈ Opcode.encodable) :
    ∃ c, Word op.mnemonic c ∧ c ≠ '.' := by
  have hall : ∀ op ∈ Opcode.encodable, op.mnemonic.toList ≠ [] ∧
      op.mnemonic.toList.all isLetter = true := by decide +kernel
  obtain ⟨hne, hletters⟩ := hall op h
  obtain ⟨c, cs, hcs⟩ := List.exists_cons_of_ne_nil hne
  rw [hcs, List.all_eq_true] at hletters
  obtain ⟨hc, hrest⟩ := List.forall_mem_cons.mp hletters
  refine ⟨c, ⟨.inl hc, cs, hcs, hrest⟩, ?_⟩
  rintro rfl
  exact absurd hc (by decide)

section Printed

variable {ps : List (List Char × Written)} (hne : ps ≠ []) (hps : ∀ p ∈ ps, Prints p.1 p.2)

include hne hps

theorem operands_printed : Operands ([',', ' '].intercalate (ps.map (·.1))) := by
  refine operands_intercalate (mt List.map_eq_nil_iff.mp hne) ?_
  intro t ht
  obtain ⟨p, hp, rfl⟩ := List.mem_map.mp ht
  exact ⟨(hps p hp).ne_nil, (hps p hp).plain⟩

variable {op : Opcode} (hop : op ∈ Opcode.encodable)

include hop

theorem instruction_printed :
    instruction (printedLine op (ps.map (·.1))) = some ((op.mnemonic, ps.map (·.2)), []) := by
  obtain ⟨p, ps, rfl⟩ := List.exists_cons_of_ne_nil hne
  obtain ⟨c, hword, -⟩ := word_mnemonic hop
  have hskip : skipSpaces (' ' :: (p.1 ++ following (ps.map (·.1)))) =
      p.1 ++ following (ps.map (·.1)) := (hps p List.mem_cons_self).skipSpaces _
  rw [printedLine, List.map_cons, intercalate_eq, instruction, name_word hword, Option.map_some]
  simp only [(by decide : Text.isSpace ' ' = true), if_true, hskip, optionalItems, items_printed hps,
    Option.getD_some]

/-- Printed operands are matched with the layout of their opcode. -/
theorem readLine_printed {l : Layout} (hl : op.layout? = some l) {i : Inst}
    (hi : matchInst op l (ps.map (·.2)) = .ok i) :
    readLine (printedLine op (ps.map (·.1))) = .ok [.inst i] := by
  have hinst : readInst (printedLine op (ps.map (·.1))) = .ok i := by
    simp only [readInst, whole, instruction_printed hne hps hop, ofMnemonic?_mnemonic hop,
      buildInst, hl, hi, Except.mapError_ok]
  obtain ⟨c, hword, hdot⟩ := word_mnemonic hop
  rw [printedLine] at hinst ⊢
  rw [readLine_word hword (operands_printed hne hps), if_neg hdot, hinst]
  rfl

end Printed

/-! ## Decoded instructions -/

/-- The text that a printed operand is read as. -/
def asWritten : Operand → Written
  | .reg r => .reg r
  | .imm v => .expr (.const v)
  | .expr e => .expr e

section Immediate

variable {s : Slot} (hcls : s.cls ≠ .reg) (hwidth : s.width = s.cls.width) {field : UInt32}
  (hfield : field.toNat < capacity s.width)

include hcls hwidth hfield

/-- Every number that is read from a field is accepted for it. -/
theorem fitsField_fieldNumber : fitsField s.cls (Int64.ofInt (fieldNumber s field)) = true := by
  have e16 : capacity 16 = 0x10000 := rfl
  have e26 : capacity 26 = 0x4000000 := rfl
  have hint := toInt_fieldNumber hcls hwidth hfield
  rw [hwidth] at hfield
  unfold fitsField
  rw [hint]
  unfold fieldNumber
  rw [hwidth]
  cases hc : s.cls <;> simp only [hc, OperandClass.width, OperandClass.isSigned,
    OperandClass.inWords, e16, e26, Int.bmod_def, if_true, if_false, Bool.false_eq_true,
    Bool.and_eq_true, decide_eq_true_eq] at *
  · exact absurd rfl hcls
  all_goals omega

end Immediate

section Decoded

variable {s : Slot} (hbounds : s.shift + s.width ≤ 32 ∧ s.width = s.cls.width) (w : UInt32)

include hbounds

theorem prints_decodeOperand :
    Prints (decodeOperand s w).text.toList (asWritten (decodeOperand s w)) := by
  unfold decodeOperand
  by_cases hc : s.cls = .reg
  · simp only [hc, if_true, Operand.text, asWritten]
    exact prints_reg _
  · have hfield := Slot.extract_lt (s := s) (by omega) w
    have hrange := fieldNumber_bounds hc hbounds.2 hfield
    have hcap : capacity 63 = 0x8000000000000000 := rfl
    simp only [hc, if_false, Operand.text, asWritten, toInt_fieldNumber hc hbounds.2 hfield]
    exact prints_imm (by omega) (by omega)

theorem matchOperand_decodeOperand (op : Opcode) (index : Nat) :
    matchOperand op index s (asWritten (decodeOperand s w)) = .ok (decodeOperand s w) := by
  unfold decodeOperand
  by_cases hc : s.cls = .reg
  · simp only [hc, if_true, asWritten, matchOperand]
  · have hfield := Slot.extract_lt (s := s) (by omega) w
    have hfits := fitsField_fieldNumber hc hbounds.2 hfield
    simp only [hc, if_false, asWritten, matchOperand]
    rw [operandFor]
    simp [Expr.constant?, hfits, Except.mapError]

end Decoded

theorem matchOperands_decodeOperand {slots : List Slot}
    (h : ∀ s ∈ slots, s.shift + s.width ≤ 32 ∧ s.width = s.cls.width) (w : UInt32) (op : Opcode)
    (index : Nat) :
    matchOperands op index (slots.zip ((slots.map (decodeOperand · w)).map asWritten)) =
      .ok (slots.map (decodeOperand · w)) := by
  induction slots generalizing index with
  | nil => rfl
  | cons s slots ih =>
    obtain ⟨hs, hrest⟩ := List.forall_mem_cons.mp h
    rw [List.map_cons, List.map_cons, List.zip_cons_cons, matchOperands,
      matchOperand_decodeOperand hs, ih hrest]
    rfl

theorem slots_of_isMemory {op : Opcode} {l : Layout} (hl : op.layout? = some l)
    (h : op.isMemory = true) : l.slots = [Layout.rdImm, Layout.rs1, Layout.simm16] := by
  have hslots : op.layout?.map (·.slots) = some [Layout.rdImm, Layout.rs1, Layout.simm16] := by
    revert h
    cases op <;> decide
  rwa [hl, Option.map_some, Option.some.injEq] at hslots

theorem slots_ne_nil {op : Opcode} {l : Layout} (hl : op.layout? = some l) : l.slots ≠ [] := by
  cases op <;> cases hl <;> decide

theorem toList_text_of_not_isMemory {i : Inst} (h : i.opcode.isMemory = false)
    (hne : i.operands ≠ []) :
    i.text.toList = printedLine i.opcode (i.operands.map (·.text.toList)) := by
  obtain ⟨op, operands⟩ := i
  have htext : Inst.text ⟨op, operands⟩ =
      op.mnemonic ++ (" " ++ String.intercalate ", " (operands.map Operand.text)) := by
    obtain ⟨o, os, rfl⟩ := List.exists_cons_of_ne_nil hne
    dsimp only at h
    simp only [Inst.text, h]
  rw [htext, String.toList_append, String.toList_append, String.toList_intercalate, List.map_map]
  rfl

theorem toList_text_of_isMemory {op : Opcode} (h : op.isMemory = true) (r base offset : Operand) :
    (Inst.mk op [r, base, offset]).text.toList =
      printedLine op [r.text.toList, offset.text.toList ++ '(' :: base.text.toList ++ [')']] := by
  simp only [Inst.text, h, String.toList_append, printedLine, List.intercalate_cons_cons,
    List.intercalate_singleton]
  simp

/-- Operands with the texts of decoded ones, in the order of the layout. -/
theorem matchInst_decodeOperand {op : Opcode} {l : Layout} (hl : op.layout? = some l) {w : UInt32}
    {ws : List Written}
    (h : expandMemory op ws = .ok ((l.slots.map (decodeOperand · w)).map asWritten)) :
    matchInst op l ws = .ok ⟨op, l.slots.map (decodeOperand · w)⟩ := by
  have hmatch := matchOperands_decodeOperand (Opcode.slot_bounds hl) w op 0
  have hlength : ((l.slots.map (decodeOperand · w)).map asWritten).length = l.slots.length := by
    rw [List.length_map, List.length_map]
  rw [matchInst, h]
  change (if _ then _ else _) = _
  rw [if_pos hlength, hmatch]
  rfl

/-- The address of a load or store, printed as one operand, is read as its two parts. -/
theorem prints_address (w : UInt32) :
    ∃ offset base, decodeOperand Layout.simm16 w = .imm offset ∧
      decodeOperand Layout.rs1 w = .reg base ∧
      Prints ((Operand.imm offset).text.toList ++ '(' :: base.text.toList ++ [')'])
        (.mem (.const offset) base) := by
  have hfield := Slot.extract_lt (s := Layout.simm16) (by decide) w
  have hrange := fieldNumber_bounds (by decide) rfl hfield
  have hint := toInt_fieldNumber (by decide) rfl hfield
  have hcap : capacity 63 = 0x8000000000000000 := rfl
  refine ⟨_, _, rfl, rfl, ?_⟩
  rw [Operand.text, hint]
  exact prints_mem (by omega) (by omega) _

/-- A decoded instruction is printed as its operands are, with the two parts of an address in one. -/
theorem printed_decoded {op : Opcode} {l : Layout} (hl : op.layout? = some l) (w : UInt32) :
    ∃ ps : List (List Char × Written), ps ≠ [] ∧ (∀ p ∈ ps, Prints p.1 p.2) ∧
      (Inst.mk op (l.slots.map (decodeOperand · w))).text.toList = printedLine op (ps.map (·.1)) ∧
      expandMemory op (ps.map (·.2)) = .ok ((l.slots.map (decodeOperand · w)).map asWritten) := by
  by_cases hmem : op.isMemory = true
  · obtain ⟨r, hreg⟩ : ∃ r, decodeOperand Layout.rdImm w = .reg r := ⟨_, rfl⟩
    obtain ⟨offset, base, hoffset, hbase, haddress⟩ := prints_address w
    have hoperands : l.slots.map (decodeOperand · w) = [.reg r, .reg base, .imm offset] := by
      simp only [slots_of_isMemory hl hmem, List.map_cons, List.map_nil, hreg, hbase, hoffset]
    refine ⟨[(r.text.toList, .reg r),
      ((Operand.imm offset).text.toList ++ '(' :: base.text.toList ++ [')'],
        .mem (.const offset) base)], List.cons_ne_nil _ _,
      List.forall_mem_cons.mpr ⟨prints_reg r, List.forall_mem_singleton.mpr haddress⟩, ?_, ?_⟩
    · rw [hoperands, toList_text_of_isMemory hmem]
      rfl
    · rw [hoperands]
      exact if_pos hmem
  · have hne := slots_ne_nil hl
    refine ⟨l.slots.map fun s => ((decodeOperand s w).text.toList, asWritten (decodeOperand s w)),
      mt List.map_eq_nil_iff.mp hne, ?_, ?_, ?_⟩
    · intro p hp
      obtain ⟨s, hs, rfl⟩ := List.mem_map.mp hp
      exact prints_decodeOperand (Opcode.slot_bounds hl s hs) w
    · rw [toList_text_of_not_isMemory (Bool.eq_false_iff.mpr hmem) (mt List.map_eq_nil_iff.mp hne),
        List.map_map, List.map_map]
      rfl
    · unfold expandMemory
      rw [if_neg hmem, List.map_map, List.map_map]
      rfl

theorem mem_encodable {op : Opcode} {l : Layout} (hl : op.layout? = some l) :
    op ∈ Opcode.encodable :=
  (Opcode.isSome_layout?_iff op).mp (by rw [hl]; rfl)

/-- The text of a decoded instruction is read as that instruction. -/
theorem readLine_decoded {w : UInt32} {i : Inst} (h : decode w = .ok i) :
    readLine i.text.toList = .ok [.inst i] := by
  obtain ⟨l, hl, hoperands, -, -⟩ := layout_of_decode h
  obtain ⟨op, operands⟩ := i
  dsimp only at hl hoperands
  subst hoperands
  obtain ⟨ps, hne, hps, htext, hexpand⟩ := printed_decoded hl w
  rw [htext]
  exact readLine_printed hne hps (mem_encodable hl) hl (matchInst_decodeOperand hl hexpand)

/-- The text of a decoded instruction is a word with operands. -/
theorem word_decoded {w : UInt32} {i : Inst} (h : decode w = .ok i) :
    ∃ s c t, Word s c ∧ Operands t ∧ i.text.toList = s.toList ++ ' ' :: t := by
  obtain ⟨l, hl, hoperands, -, -⟩ := layout_of_decode h
  obtain ⟨op, operands⟩ := i
  dsimp only at hl hoperands
  subst hoperands
  obtain ⟨ps, hne, hps, htext, -⟩ := printed_decoded hl w
  obtain ⟨c, hword, -⟩ := word_mnemonic (mem_encodable hl)
  exact ⟨_, c, _, hword, operands_printed hne hps, htext⟩

/-! ## Numbers as data -/

/-- A data directive with one number. -/
def dataLine (directive : String) (width n : Nat) : List Char :=
  directive.toList ++ ' ' :: '0' :: 'x' :: (Text.hex width n).toList

theorem plain_hex (width n : Nat) :
    ∀ c ∈ '0' :: 'x' :: (Text.hex width n).toList, isPlain c = true := by
  refine List.forall_mem_cons.mpr ⟨by decide, List.forall_mem_cons.mpr ⟨by decide, ?_⟩⟩
  intro c hc
  obtain ⟨k, hk, rfl⟩ := Text.mem_hex hc
  have hall : ∀ k < 16, isPlain k.digitChar = true := by decide
  exact hall k hk

theorem items_hex {width n : Nat} (h : n < capacity 63) :
    items (spaced expression) ('0' :: 'x' :: (Text.hex width n).toList) =
      some ([.const (Int64.ofNat n)], []) := by
  have hexpression := @expression_hex width n h [] trivial
  rw [List.append_nil] at hexpression
  have hspaced : spaced expression ('0' :: 'x' :: (Text.hex width n).toList) =
      some (.const (Int64.ofNat n), []) := @spaced_of_read _ expression _ [] _ hexpression
  rw [items, hspaced]
  rfl

theorem word_directive {directive : String} {size : Nat} (h : dataSize? directive = some size) :
    Word directive '.' := by
  refine ⟨.inr rfl, ?_⟩
  unfold dataSize? at h
  split at h
  · exact ⟨_, rfl, List.all_eq_true.mp (by decide)⟩
  · exact ⟨_, rfl, List.all_eq_true.mp (by decide)⟩
  · exact ⟨_, rfl, List.all_eq_true.mp (by decide)⟩
  · exact ⟨_, rfl, List.all_eq_true.mp (by decide)⟩
  · cases h

theorem readDirective_data {directive : String} {size : Nat} (h : dataSize? directive = some size)
    {width n : Nat} (hn : n < capacity 63) :
    readDirective (dataLine directive width n) = .ok (.data size [.const (Int64.ofNat n)]) := by
  obtain ⟨-, cs, hcs, hletters⟩ := word_directive h
  have hword : ∀ c ∈ directive.toList, (!Text.isBlank c) = true := by
    rw [hcs]
    refine List.forall_mem_cons.mpr ⟨by decide, ?_⟩
    intro c hc
    rw [isBlank_of_isPlain (by simp [isPlain, hletters c hc])]
    rfl
  have hstop : Stops (fun c => !Text.isBlank c) (' ' :: '0' :: 'x' :: (Text.hex width n).toList) :=
    (by decide : (!Text.isBlank ' ') = false)
  have htrim : Text.trim (' ' :: '0' :: 'x' :: (Text.hex width n).toList) =
      '0' :: 'x' :: (Text.hex width n).toList := by
    have hzero : Stops Text.isBlank ([] ++ '0' :: 'x' :: (Text.hex width n).toList) :=
      (by decide : Text.isBlank '0' = false)
    have hspace (cs : List Char) : Text.trim (' ' :: cs) = Text.trim cs := rfl
    have htail := trim_append hzero (List.cons_ne_nil _ _) (plain_hex width n)
    rw [hspace, ← List.nil_append ('0' :: _), htail]
  unfold readDirective dataLine
  simp only [takeWhile_stops hword hstop, dropWhile_stops hword hstop, htrim, String.ofList_toList,
    whole, items_hex hn, h]
  unfold dataSize? at h
  split at h <;> simp_all

/-- A number in a data directive is read back. -/
theorem readLine_data {directive : String} {size : Nat} (h : dataSize? directive = some size)
    {width n : Nat} (hn : n < capacity 63) :
    readLine (dataLine directive width n) = .ok [.data size [.const (Int64.ofNat n)]] := by
  have hread := @readDirective_data directive size h width n hn
  have hoperands := operands_plain (List.cons_ne_nil _ _) (plain_hex width n)
  rw [dataLine] at hread ⊢
  rw [readLine_word (word_directive h) hoperands, if_pos rfl, hread]
  rfl

end Dlx.Source
