import Dlx.Proofs.Decoding
import Dlx.Proofs.Source.PrintedExpression

/-!
# Constant targets

Branches, calls and jumps hold their target in words. A constant target that is no number of words,
or too many, is refused, since its field would stand for another one. The check is not made for a
constant under an outermost `%lo` or `%hi`, which is taken for a field already. In these slots it is
not: the field holds a quarter of it. And a number under `%pcrel` is not folded, so it stays an
expression that nobody checks here.

Results:
* `fitsField_iff_target`: the check of a constant says that its field holds it.
* `readNumberedLine_target`: a line with a target is read as its operand is matched.
* `targets_checked_unless_marked`: which constant targets are accepted and which are refused, for
  every line, and which of them the decoder gives back.
-/
namespace Dlx

/-- The value is a number of words that a field of the class holds. -/
def OperandClass.Target (cls : OperandClass) (v : Int) : Prop :=
  ∃ words : Int, v = 4 * words ∧
    if cls.isSigned then -(capacity (cls.width - 1) : Int) ≤ words ∧ words < capacity (cls.width - 1)
    else 0 ≤ words ∧ words < capacity cls.width

/-- A number under the marker of calls. -/
def Expr.isCallOfConstant : Expr → Bool
  | .marked .call (.const _) => true
  | _ => false

/-- A target is the last operand, behind registers. -/
theorem Opcode.target_slots {op : Opcode} {l : Layout} (h : op.layout? = some l) :
    ∀ slot ∈ l.slots, slot.cls.inWords = true →
      op.isMemory = false ∧ l.slots = l.slots.dropLast ++ [slot] ∧
        ∀ s ∈ l.slots.dropLast, s.cls = .reg := by
  cases op <;> cases h <;> decide

namespace Source

theorem fitsField_iff_target {cls : OperandClass} (hcls : cls.inWords = true) (v : Int64) :
    fitsField cls v = true ↔ cls.Target v.toInt := by
  have e15 : capacity 15 = 32768 := rfl
  have e25 : capacity 25 = 33554432 := rfl
  have e26 : capacity 26 = 67108864 := rfl
  unfold OperandClass.Target
  cases cls <;> cases hcls <;>
    simp only [fitsField, OperandClass.isSigned, OperandClass.width, e15, e25, e26, if_true,
      if_false, Bool.false_eq_true, Bool.and_eq_true, decide_eq_true_eq]
  all_goals
    constructor
    · intro h
      exact ⟨v.toInt / 4, by omega⟩
    · rintro ⟨words, hwords⟩
      omega

/-! ## Matching a target -/

theorem operandFor_constant {cls : OperandClass} (hcls : cls.inWords = true) {e : Expr} {v : Int64}
    (he : e.constant? = some v) :
    operandFor cls e =
      if (Operand.expr e).isMarked || fitsField cls v then .ok (.imm v)
      else .error (.badTarget v) := by
  have hfault : rangeFault cls v = .badTarget v := by cases cls <;> cases hcls <;> rfl
  unfold operandFor
  rw [he]
  dsimp only
  rw [hfault]

theorem const_of_names_eq_nil {e : Expr} (hnames : e.names = []) {m : Marker} {r : SymbolRef}
    (h : e.RefersUnder m r) : ∃ c, e = .const c ∧ r = ⟨m, none, none, c⟩ := by
  cases h with
  | const c => exact ⟨c, rfl, rfl⟩
  | _ => cases hnames

/-- Without symbols and without a value only a number under the marker of calls is a reference. -/
theorem refers?_of_names_eq_nil {e : Expr} (hnames : e.names = []) (he : e.constant? = none)
    {r : SymbolRef} (hr : e.refers? = some r) :
    ∃ c, e = .marked .call (.const c) ∧ r = ⟨.call, none, none, c⟩ := by
  obtain ⟨hm, hrefers⟩ := Expr.refers?_eq_some_iff.mp hr
  obtain ⟨c, hc, rfl⟩ := const_of_names_eq_nil (e.names_unmarked.trans hnames) hrefers
  cases e with
  | marked m inner =>
    obtain rfl : inner = .const c := hc
    -- the other markers fold the number
    cases m with
    | call => exact ⟨c, rfl, rfl⟩
    | invalid => exact absurd rfl hm
    | _ => cases he
  | const v => cases he
  | _ => cases hc

theorem operandFor_of_names_eq_nil {cls : OperandClass} (hcls : cls.inWords = true) {e : Expr}
    (hnames : e.names = []) (he : e.constant? = none) :
    operandFor cls e =
      if cls = .call ∧ e.isCallOfConstant then .ok (.expr e)
      else .error (.wrongOperand (.expr e)) := by
  have hfits : fitsSlot cls (.expr e) = true ↔ cls = .call ∧ e.isCallOfConstant := by
    cases hr : e.refers? with
    | some r =>
      obtain ⟨c, rfl, rfl⟩ := refers?_of_names_eq_nil hnames he hr
      cases cls <;> cases hcls <;> simp [fitsSlot, Operand.isPlainSymbol, Operand.isCallTarget,
        Operand.marker?, Operand.refers?, hr, Expr.isCallOfConstant]
    | none =>
      have hcall : e.isCallOfConstant = false := by
        unfold Expr.isCallOfConstant
        split
        · cases hr
        · rfl
      cases cls <;> cases hcls <;> simp [fitsSlot, Operand.isPlainSymbol, Operand.isCallTarget,
        Operand.marker?, Operand.refers?, hr, hcall]
  unfold operandFor
  rw [he]
  simp only [hfits]

section Match

variable {op : Opcode} {slot : Slot} {index : Nat}

theorem matchOperand_target (hcls : slot.cls.inWords = true) (e : Expr) :
    matchOperand op index slot (.expr e) = (operandFor slot.cls e).mapError (.operand op) := by
  unfold matchOperand
  cases hc : slot.cls with
  | reg =>
    rw [hc] at hcls
    cases hcls
  | _ => rfl

theorem expr_of_matchOperand (hcls : slot.cls.inWords = true) {w : Written} {o : Operand}
    (h : matchOperand op index slot w = .ok o) : ∃ e, w = .expr e := by
  cases w with
  | expr e => exact ⟨e, rfl⟩
  | _ =>
    unfold matchOperand at h
    cases hc : slot.cls <;> rw [hc] at hcls h <;> cases hcls <;> cases h

theorem matchOperand_reg (hcls : slot.cls = .reg) (r : Reg) :
    matchOperand op index slot (.reg r) = .ok (.reg r) := by
  unfold matchOperand
  rw [hcls]

theorem reg_of_matchOperand (hcls : slot.cls = .reg) {w : Written} {o : Operand}
    (h : matchOperand op index slot w = .ok o) : ∃ r, w = .reg r := by
  cases w with
  | reg r => exact ⟨r, rfl⟩
  | _ =>
    unfold matchOperand at h
    rw [hcls] at h
    cases h

variable (hcls : slot.cls.inWords = true) {pre : List Slot} (hpre : ∀ s ∈ pre, s.cls = .reg)
include hcls hpre

theorem matchOperands_target {rs : List Reg} (hlen : rs.length = pre.length) (e : Expr) :
    matchOperands op index ((pre ++ [slot]).zip (rs.map .reg ++ [.expr e])) =
      ((operandFor slot.cls e).mapError (.operand op)).map (rs.map .reg ++ [·]) := by
  induction pre generalizing rs index with
  | nil =>
    cases List.length_eq_zero_iff.mp hlen
    simp only [List.nil_append, List.map_nil, List.zip_cons_cons, List.zip_nil_left, matchOperands,
      matchOperand_target hcls]
    cases (operandFor slot.cls e).mapError (LineFault.operand op) <;> rfl
  | cons s pre ih =>
    obtain ⟨hs, hrest⟩ := List.forall_mem_cons.mp hpre
    cases rs with
    | nil => cases hlen
    | cons r rs =>
      simp only [List.cons_append, List.map_cons, List.zip_cons_cons, matchOperands,
        matchOperand_reg hs, ih hrest (Nat.succ.inj hlen)]
      cases (operandFor slot.cls e).mapError (LineFault.operand op) <;> rfl

/-- What matches are registers and then an expression. -/
theorem written_of_matchOperands {ws : List Written} (hlen : ws.length = pre.length + 1)
    {operands : List Operand} (h : matchOperands op index ((pre ++ [slot]).zip ws) = .ok operands) :
    ∃ (rs : List Reg) (e : Expr), rs.length = pre.length ∧ ws = rs.map .reg ++ [.expr e] := by
  induction pre generalizing ws index operands with
  | nil =>
    obtain ⟨w, rfl⟩ := List.length_eq_one_iff.mp hlen
    obtain ⟨o, ho, -⟩ := Except.bind_eq_ok_iff.mp h
    obtain ⟨e, rfl⟩ := expr_of_matchOperand hcls ho
    exact ⟨[], e, rfl, rfl⟩
  | cons s pre ih =>
    obtain ⟨hs, hrest⟩ := List.forall_mem_cons.mp hpre
    cases ws with
    | nil => cases hlen
    | cons w ws =>
      obtain ⟨o, ho, h⟩ := Except.bind_eq_ok_iff.mp h
      obtain ⟨os, hos, -⟩ := Except.bind_eq_ok_iff.mp h
      obtain ⟨r, rfl⟩ := reg_of_matchOperand hs ho
      obtain ⟨rs, e, hcount, rfl⟩ := ih hrest (Nat.succ.inj hlen) hos
      exact ⟨r :: rs, e, congrArg Nat.succ hcount, rfl⟩

end Match

theorem expandMemory_of_not_memory {op : Opcode} (h : op.isMemory = false) (ws : List Written) :
    expandMemory op ws = .ok ws := by
  unfold expandMemory
  rw [h]
  rfl

section Inst

variable {op : Opcode} {l : Layout} (hl : op.layout? = some l) {slot : Slot}
  (hslot : slot ∈ l.slots) (hcls : slot.cls.inWords = true)
include hl hslot hcls

theorem matchInst_target {rs : List Reg} (hlen : rs.length + 1 = l.slots.length) (e : Expr) :
    matchInst op l (rs.map .reg ++ [.expr e]) =
      ((operandFor slot.cls e).mapError (.operand op)).map fun o => ⟨op, rs.map .reg ++ [o]⟩ := by
  obtain ⟨hmem, hslots, hregs⟩ := Opcode.target_slots hl slot hslot hcls
  have hcount : rs.length = l.slots.dropLast.length := by rw [List.length_dropLast]; omega
  have hmatch : matchOperands op 0
      ((l.slots.dropLast ++ [slot]).zip (rs.map .reg ++ [.expr e])) = _ :=
    matchOperands_target hcls hregs hcount e
  rw [← hslots] at hmatch
  rw [matchInst, expandMemory_of_not_memory hmem]
  change (if _ then _ else _) = _
  rw [if_pos (by simpa using hlen), hmatch]
  cases (operandFor slot.cls e).mapError (LineFault.operand op) <;> rfl

theorem written_of_matchInst {ws : List Written} {i : Inst} (h : matchInst op l ws = .ok i) :
    ∃ (rs : List Reg) (e : Expr), rs.length + 1 = l.slots.length ∧
      ws = rs.map .reg ++ [.expr e] := by
  obtain ⟨hmem, hslots, hregs⟩ := Opcode.target_slots hl slot hslot hcls
  have hpos : 0 < l.slots.length := List.length_pos_of_mem hslot
  rw [matchInst, expandMemory_of_not_memory hmem] at h
  change (if _ then _ else _) = _ at h
  split at h
  · next hlen =>
    obtain ⟨operands, hoperands, -⟩ := Except.bind_eq_ok_iff.mp h
    rw [hslots] at hoperands
    have hcount : ws.length = l.slots.dropLast.length + 1 := by rw [List.length_dropLast]; omega
    obtain ⟨rs, e, hrs, rfl⟩ := written_of_matchOperands hcls hregs hcount hoperands
    rw [List.length_dropLast] at hrs
    exact ⟨rs, e, by omega, rfl⟩
  · cases h

end Inst

/-! ## Lines with a target -/

/-- The line has labels with these names, and then the instruction with these operands. -/
def Writes (cs : List Char) (names : List String) (op : Opcode) (ws : List Written) : Prop :=
  let code := Text.trim (beforeComment cs)
  ∃ rest mnemonic, takeLabels code.length code = (names, rest) ∧ rest.head? ≠ some '.' ∧
    whole instruction rest = some (mnemonic, ws) ∧
    Opcode.ofMnemonic? (lowerCase mnemonic) = some op

theorem Writes.readLine {cs : List Char} {names : List String} {op : Opcode} {ws : List Written}
    (h : Writes cs names op ws) {l : Layout} (hl : op.layout? = some l) :
    readLine cs =
      ((matchInst op l ws).map fun i => names.map .label ++ [.inst i]).mapError .fault := by
  obtain ⟨rest, mnemonic, hlabels, hdot, hinst, hop⟩ := h
  have hread : readInst rest = (matchInst op l ws).mapError .fault := by
    simp only [readInst, hinst, hop, buildInst, hl]
  unfold Source.readLine
  simp only [hlabels]
  split
  · cases hinst
  · exact absurd rfl hdot
  · rw [hread]
    cases matchInst op l ws <;> rfl

theorem ne_inst_of_readDirective {cs : List Char} {s : Statement} (h : readDirective cs = .ok s)
    (i : Inst) : s ≠ .inst i := by
  unfold readDirective at h
  dsimp only at h
  rintro rfl
  repeat' split at h
  all_goals cases h

theorem opcode_of_matchInst {op : Opcode} {l : Layout} {ws : List Written} {i : Inst}
    (h : matchInst op l ws = .ok i) : i.opcode = op := by
  simp only [matchInst, Except.bind_eq_ok_iff] at h
  obtain ⟨ws', -, h⟩ := h
  split at h
  · obtain ⟨operands, -, h⟩ := Except.bind_eq_ok_iff.mp h
    cases h
    rfl
  · cases h

/-- A line with an instruction was written so. -/
theorem writes_of_readLine {cs : List Char} {statements : List Statement}
    (h : readLine cs = .ok statements) {i : Inst} (hi : .inst i ∈ statements) :
    ∃ names ws l, Writes cs names i.opcode ws ∧ i.opcode.layout? = some l ∧
      matchInst i.opcode l ws = .ok i := by
  unfold readLine at h
  obtain ⟨names, rest, hlabels⟩ : ∃ names rest, takeLabels (Text.trim (beforeComment cs)).length
      (Text.trim (beforeComment cs)) = (names, rest) := ⟨_, _, rfl⟩
  have hnot : .inst i ∉ names.map Statement.label := by simp
  simp only [hlabels] at h
  split at h
  · cases h
    exact absurd hi hnot
  · obtain ⟨s, hs, h⟩ := Except.bind_eq_ok_iff.mp h
    cases h
    rcases List.mem_append.mp hi with hi | hi
    · exact absurd hi hnot
    · exact absurd (List.mem_singleton.mp hi).symm
        (ne_inst_of_readDirective (Except.mapError_eq_ok_iff.mp hs) i)
  · next hdot =>
    obtain ⟨j, hj, h⟩ := Except.bind_eq_ok_iff.mp h
    cases h
    rcases List.mem_append.mp hi with hi | hi
    · exact absurd hi hnot
    · cases List.mem_singleton.mp hi
      obtain ⟨mnemonic, ws, op, l, hinst, hop, hl, hmatch⟩ := matchInst_of_readInst hj
      obtain rfl := opcode_of_matchInst hmatch
      refine ⟨names, ws, l, ⟨rest, mnemonic, hlabels, ?_, hinst, hop⟩, hl, hmatch⟩
      intro hhead
      obtain ⟨rest', rfl⟩ := List.head?_eq_some_iff.mp hhead
      exact hdot rest' rfl

/-- The expressions of a line are chains. -/
theorem Writes.isChain {cs : List Char} {names : List String} {op : Opcode} {ws : List Written}
    (h : Writes cs names op ws) : ∀ w ∈ ws, w.All Expr.IsChain := by
  obtain ⟨rest, mnemonic, -, -, hinst, -⟩ := h
  have hzero : (Expr.const 0).IsChain := by
    show (0 : Int64) ≠ Int64.minValue
    decide
  exact (yields_instruction yields_isChain hzero).whole hinst

theorem readNumberedLine_target {op : Opcode} {l : Layout} (hl : op.layout? = some l) {slot : Slot}
    (hslot : slot ∈ l.slots) (hcls : slot.cls.inWords = true) {cs : List Char} {names : List String}
    {rs : List Reg} {e : Expr} (h : Writes cs names op (rs.map .reg ++ [.expr e]))
    (hlen : rs.length + 1 = l.slots.length) (line : Nat) :
    readNumberedLine line cs =
      ((operandFor slot.cls e).map fun o =>
        names.map .label ++ [.inst ⟨op, rs.map .reg ++ [o]⟩]).mapError
          fun fault => .fault line (.operand op fault) := by
  rw [readNumberedLine, h.readLine hl, matchInst_target hl hslot hcls hlen]
  cases operandFor slot.cls e <;> rfl

/-! ## Decoding a target -/

section Decode

variable {slot : Slot} (hcls : slot.cls.inWords = true) (v : Int64)
include hcls

theorem direct_target {pre : List Slot} (hpre : ∀ s ∈ pre, s.cls = .reg) {rs : List Reg}
    (hlen : rs.length = pre.length) :
    List.Forall₂ Operand.Direct (pre ++ [slot]) (rs.map .reg ++ [.imm v]) := by
  induction pre generalizing rs with
  | nil =>
    cases List.length_eq_zero_iff.mp hlen
    refine .cons (fun hreg => ?_) .nil
    rw [hreg] at hcls
    cases hcls
  | cons s pre ih =>
    obtain ⟨hs, hrest⟩ := List.forall_mem_cons.mp hpre
    cases rs with
    | nil => cases hlen
    | cons r rs => exact .cons hs (ih hrest (Nat.succ.inj hlen))

omit hcls in
theorem forall₂_fitsField_target {pre : List Slot} {rs : List Reg} (hlen : rs.length = pre.length) :
    List.Forall₂ (fun s o => ∀ w, o = .imm w → fitsField s.cls w = true) (pre ++ [slot])
      (rs.map Operand.reg ++ [.imm v]) ↔ fitsField slot.cls v = true := by
  induction pre generalizing rs with
  | nil =>
    cases List.length_eq_zero_iff.mp hlen
    simp
  | cons s pre ih =>
    cases rs with
    | nil => cases hlen
    | cons r rs =>
      rw [List.map_cons, List.cons_append, List.cons_append, List.forall₂_cons,
        ih (Nat.succ.inj hlen)]
      simp

/-- A target is read back from its word exactly if its field holds it. -/
theorem decode_target {op : Opcode} {l : Layout} (hl : op.layout? = some l) (hslot : slot ∈ l.slots)
    {rs : List Reg} (hlen : rs.length + 1 = l.slots.length) :
    ∃ word, (Inst.mk op (rs.map .reg ++ [.imm v])).encode = .ok (word, []) ∧
      (decode word = .ok ⟨op, rs.map .reg ++ [.imm v]⟩ ↔ slot.cls.Target v.toInt) := by
  obtain ⟨-, hslots, hregs⟩ := Opcode.target_slots hl slot hslot hcls
  have hcount : rs.length = l.slots.dropLast.length := by rw [List.length_dropLast]; omega
  have hdirect := direct_target hcls v hregs hcount
  have hfits := @forall₂_fitsField_target slot v _ _ hcount
  rw [← hslots] at hdirect hfits
  obtain ⟨word, hencode, hdecode⟩ := decode_encode_direct hl hdirect
  refine ⟨word, hencode, ?_⟩
  rw [hdecode, ← fitsField_iff_target hcls, ← hfits, ← zipWith_represented_eq_iff hdirect]
  simp

end Decode

/-! ## Accepted and refused targets -/

/-- The marker of a constant that was read is `%lo` or `%hi`. -/
theorem lo_or_hi_of_constant? {m : Marker} {inner : Expr} (hchain : (Expr.marked m inner).IsChain)
    {v : Int64} (h : (Expr.marked m inner).constant? = some v) : m = .lo ∨ m = .hi := by
  rcases hchain.1 with rfl | rfl | rfl
  · exact .inl rfl
  · exact .inr rfl
  · simp only [Expr.constant?, Option.bind_eq_bind, Option.bind_eq_some_iff] at h
    obtain ⟨_, -, hfold⟩ := h
    cases hfold

theorem isMarked_iff {e : Expr} :
    (Operand.expr e).isMarked = true ↔ ∃ m inner, e = .marked m inner := by
  cases e with
  | marked m inner => exact ⟨fun _ => ⟨m, inner, rfl⟩, fun _ => rfl⟩
  | _ => simp [Operand.isMarked]

/-- A constant that was accepted as a target. -/
theorem target_of_operandFor {cls : OperandClass} (hcls : cls.inWords = true) {e : Expr}
    (hchain : e.IsChain) {v : Int64} (h : operandFor cls e = .ok (.imm v)) :
    e.constant? = some v ∧
      (cls.Target v.toInt ∨ ∃ m inner, e = .marked m inner ∧ (m = .lo ∨ m = .hi)) := by
  cases hc : e.constant? with
  | none =>
    unfold operandFor at h
    rw [hc] at h
    dsimp only at h
    split at h <;> cases h
  | some w =>
    rw [operandFor_constant hcls hc] at h
    split at h
    · next hok =>
      cases h
      refine ⟨rfl, ?_⟩
      rcases Bool.or_eq_true_iff.mp hok with hmarked | hfits
      · obtain ⟨m, inner, rfl⟩ := isMarked_iff.mp hmarked
        exact .inr ⟨m, inner, rfl, lo_or_hi_of_constant? hchain hc⟩
      · exact .inl ((fitsField_iff_target hcls v).mp hfits)
    · cases h

/-- An instruction of a line, with a target, was written with its operand behind registers. -/
theorem written_of_readNumberedLine {op : Opcode} {l : Layout} (hl : op.layout? = some l)
    {slot : Slot} (hslot : slot ∈ l.slots) (hcls : slot.cls.inWords = true) {line : Nat}
    {cs : List Char} {statements : List Statement} (h : readNumberedLine line cs = .ok statements)
    {operands : List Operand} (hmem : .inst ⟨op, operands⟩ ∈ statements) :
    ∃ (names : List String) (rs : List Reg) (e : Expr) (o : Operand),
      Writes cs names op (rs.map .reg ++ [.expr e]) ∧ rs.length + 1 = l.slots.length ∧
      operandFor slot.cls e = .ok o ∧ operands = rs.map .reg ++ [o] := by
  obtain ⟨names, ws, l', hwrites, hl', hmatch⟩ :=
    writes_of_readLine (Except.mapError_eq_ok_iff.mp h) hmem
  obtain rfl : l = l' := Option.some.inj (hl.symm.trans hl')
  obtain ⟨rs, e, hlen, rfl⟩ := written_of_matchInst hl hslot hcls hmatch
  rw [matchInst_target hl hslot hcls hlen] at hmatch
  cases ho : operandFor slot.cls e with
  | error fault =>
    rw [ho] at hmatch
    cases hmatch
  | ok o =>
    rw [ho] at hmatch
    cases hmatch
    exact ⟨names, rs, e, o, hwrites, hlen, ho, rfl⟩

/-- Constant targets are checked unless a marker stands around them. A constant that a line yields
as the target of a branch, call or jump was written as an expression with that value, and is a
number of words that its field holds, or stands under `%lo` or `%hi`; the decoder gives it back only
if its field holds it. Of the lines that end with an expression without symbols in such a slot,
those with a value are refused if the field does not hold it and no marker stands outermost, and
accepted otherwise; those without one are refused unless it is a number under the marker of calls in
the slot of a call. -/
theorem targets_checked_unless_marked {op : Opcode} {l : Layout} (hl : op.layout? = some l)
    {slot : Slot} (hslot : slot ∈ l.slots) (hcls : slot.cls.inWords = true) (line : Nat)
    (cs : List Char) :
    (∀ statements operands v, readNumberedLine line cs = .ok statements →
      .inst ⟨op, operands⟩ ∈ statements → .imm v ∈ operands →
      ∃ (names : List String) (rs : List Reg) (e : Expr),
        Writes cs names op (rs.map .reg ++ [.expr e]) ∧ operands = rs.map .reg ++ [.imm v] ∧
        e.constant? = some v ∧
        (slot.cls.Target v.toInt ∨ ∃ m inner, e = .marked m inner ∧ (m = .lo ∨ m = .hi)) ∧
        ∃ word, (Inst.mk op operands).encode = .ok (word, []) ∧
          (decode word = .ok ⟨op, operands⟩ ↔ slot.cls.Target v.toInt)) ∧
    ∀ (names : List String) (rs : List Reg) (e : Expr),
      Writes cs names op (rs.map .reg ++ [.expr e]) → rs.length + 1 = l.slots.length →
      (∀ v, e.constant? = some v →
        ((∃ m inner, e = .marked m inner) ∨ slot.cls.Target v.toInt →
          readNumberedLine line cs =
            .ok (names.map .label ++ [.inst ⟨op, rs.map .reg ++ [.imm v]⟩])) ∧
        ((¬ ∃ m inner, e = .marked m inner) → ¬ slot.cls.Target v.toInt →
          readNumberedLine line cs = .error (.fault line (.operand op (.badTarget v))))) ∧
      (e.names = [] → e.constant? = none →
        readNumberedLine line cs =
          if slot.cls = .call ∧ e.isCallOfConstant then
            .ok (names.map .label ++ [.inst ⟨op, rs.map .reg ++ [.expr e]⟩])
          else .error (.fault line (.operand op (.wrongOperand (.expr e))))) := by
  refine ⟨?_, ?_⟩
  · intro statements operands v hread hmem himm
    obtain ⟨names, rs, e, o, hwrites, hlen, ho, rfl⟩ :=
      written_of_readNumberedLine hl hslot hcls hread hmem
    -- the registers are no constants
    obtain rfl : .imm v = o := by simpa using himm
    obtain ⟨hvalue, htarget⟩ :=
      target_of_operandFor hcls (hwrites.isChain (.expr e) (by simp)) ho
    exact ⟨names, rs, e, hwrites, rfl, hvalue, htarget, decode_target hcls v hl hslot hlen⟩
  · intro names rs e hwrites hlen
    have hline := readNumberedLine_target hl hslot hcls hwrites hlen line
    refine ⟨?_, ?_⟩
    · intro v he
      rw [hline, operandFor_constant hcls he, ← isMarked_iff, ← fitsField_iff_target hcls,
        ← Bool.or_eq_true_iff]
      refine ⟨?_, ?_⟩
      · intro hok
        rw [if_pos hok]
        rfl
      · intro hmarked hfits
        rw [if_neg (by simp [hmarked, hfits])]
        rfl
    · intro hnames he
      rw [hline, operandFor_of_names_eq_nil hcls hnames he]
      split <;> rfl

/-- A branch behind a label. 6 is no number of words, however it is written, and under a marker it
is accepted all the same and does not come back. -/
theorem targets_checked_unless_marked_branch :
    Writes "on: bnez r3, 10-4".toList ["on"] .bnez
      ([Reg.ofBits 3].map .reg ++ [.expr (.sub (.const 10) (.const 4))]) ∧
    readNumberedLine 5 "on: bnez r3, 10-4".toList =
      .error (.fault 5 (.operand .bnez (.badTarget 6))) ∧
    readNumberedLine 5 "on: bnez r3, %hi(0x60000)".toList =
      .ok [.label "on", .inst ⟨.bnez, [.reg (.ofBits 3), .imm 6]⟩] ∧
    ∃ word, (Inst.mk .bnez [.reg (.ofBits 3), .imm 6]).encode = .ok (word, []) ∧
      decode word ≠ .ok ⟨.bnez, [.reg (.ofBits 3), .imm 6]⟩ := by
  have hl : Opcode.bnez.layout? = some (.branch 0x05) := rfl
  have hslot : (⟨0, 16, .branch⟩ : Slot) ∈ (Layout.branch 0x05).slots := by decide
  have hodd : ¬ OperandClass.branch.Target (6 : Int64).toInt := by
    rintro ⟨words, hwords, -⟩
    have hsix : (6 : Int64).toInt = 6 := rfl
    omega
  have hplain : Writes "on: bnez r3, 10-4".toList ["on"] .bnez
      ([Reg.ofBits 3].map .reg ++ [.expr (.sub (.const 10) (.const 4))]) :=
    ⟨"bnez r3, 10-4".toList, "bnez", by decide +kernel, by decide, by decide +kernel,
      by decide +kernel⟩
  have hmarked : Writes "on: bnez r3, %hi(0x60000)".toList ["on"] .bnez
      ([Reg.ofBits 3].map .reg ++ [.expr (.marked .hi (.const 0x60000))]) :=
    ⟨"bnez r3, %hi(0x60000)".toList, "bnez", by decide +kernel, by decide, by decide +kernel,
      by decide +kernel⟩
  have hrefused := (targets_checked_unless_marked hl hslot rfl 5 "on: bnez r3, 10-4".toList).2
    _ _ _ hplain rfl
  obtain ⟨hyields, haccepts⟩ :=
    targets_checked_unless_marked hl hslot rfl 5 "on: bnez r3, %hi(0x60000)".toList
  have haccepted := ((haccepts _ _ _ hmarked rfl).1 6 rfl).1 (.inl ⟨_, _, rfl⟩)
  obtain ⟨_, _, _, -, -, -, -, word, hencode, hdecode⟩ :=
    hyields _ [.reg (.ofBits 3), .imm 6] 6 haccepted (by decide) (by decide)
  refine ⟨hplain, (hrefused.1 6 rfl).2 ?_ hodd, haccepted, word, hencode, ?_⟩
  · rintro ⟨m, inner, ⟨⟩⟩
  · exact fun hsame => hodd (hdecode.mp hsame)

/-- A jump to 6 is accepted under a marker, and its word is that of a jump to 4. -/
theorem marked_jump_target_unchecked :
    readNumberedLine 1 "j 6".toList = .error (.fault 1 (.operand .j (.badTarget 6))) ∧
    readNumberedLine 1 "j %lo(6)".toList = .ok [.inst ⟨.j, [.imm 6]⟩] ∧
    ∃ word, (Inst.mk .j [.imm 6]).encode = .ok (word, []) ∧
      decode word = .ok ⟨.j, [.imm 4]⟩ := by
  refine ⟨by decide +kernel, by decide +kernel, _, rfl, ?_⟩
  rfl

end Source

end Dlx
