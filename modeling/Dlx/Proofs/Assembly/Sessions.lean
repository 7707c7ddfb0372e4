import Dlx.Proofs.Assembly.Growth
import Dlx.Proofs.NameMap

/-!
# Operations that fail

An assembly is changed in place, so an operation that fails could leave behind what it did before it
failed: a label enters its name into the table before it finds the name taken, and an instruction has
collected the fixups of its first operands when a later one is refused. Here each operation says what
it leaves behind in either case, change by change; that this is nothing when it fails is a theorem.

Results:
* `Inst.push_eq`: an instruction that cannot be encoded leaves no fixups.
* `Assembly.act_eq`: an operation that fails leaves the assembly as it was.
* `Assembly.session_without_failures`: a session gives the same answers and the same object without
  its failed operations.
-/
namespace Dlx

/-! ## Encoding in place -/

/-- Encodes an operand; its fixup is pushed to those before. -/
def pushOperand (op : Opcode) (index : Nat) (slot : Slot) (operand : Operand)
    (fixups : List Fixup) : List Fixup × Except EncodeError UInt32 :=
  match operand with
  | .reg r =>
    if slot.cls = .reg then (fixups, .ok (UInt32.ofNat r.num.val))
    else (fixups, .error (.expectedImmediate op index))
  | .imm v =>
    if slot.cls = .reg then (fixups, .error (.expectedRegister op index))
    else (fixups, .ok (immediateBits slot.cls v))
  | .expr e =>
    if slot.cls = .reg then (fixups, .error (.expectedRegister op index))
    else if e.refers?.isNone then (fixups, .error (.unclassifiable e))
    else
      match chooseFixup op slot e with
      | .error err => (fixups, .error err)
      | .ok kind => (fixups ++ [⟨0, e, kind⟩], .ok 0)

/-- Puts the operands into `word` up to the first that fails. The fixups of those before it stay. -/
def pushOperands (op : Opcode) (word : UInt32) (index : Nat) :
    List (Slot × Operand) → List Fixup → List Fixup × Except EncodeError UInt32
  | [], fixups => (fixups, .ok word)
  | (slot, operand) :: rest, fixups =>
    match pushOperand op index slot operand fixups with
    | (fixups, .error e) => (fixups, .error e)
    | (fixups, .ok field) => pushOperands op (word ||| slot.insert field) (index + 1) rest fixups

/-- Encodes an instruction; its fixups are collected apart, and pushed when all operands are in. -/
def Inst.push (i : Inst) (fixups : List Fixup) : List Fixup × Except EncodeError UInt32 :=
  match i.opcode.layout? with
  | none => (fixups, .error (.noEncoding i.opcode))
  | some layout =>
    if i.operands.length = layout.slots.length then
      match pushOperands i.opcode layout.fixedBits 0 (layout.slots.zip i.operands) [] with
      | (_, .error e) => (fixups, .error e)
      | (pending, .ok word) => (fixups ++ pending, .ok word)
    else (fixups, .error (.operandCount i.opcode layout.slots.length i.operands.length))

theorem pushOperand_eq (op : Opcode) (index : Nat) (slot : Slot) (operand : Operand)
    (fixups : List Fixup) :
    pushOperand op index slot operand fixups =
      match encodeOperand op index slot operand with
      | .error e => (fixups, .error e)
      | .ok (field, more) => (fixups ++ more, .ok field) := by
  cases operand with
  | reg r => by_cases h : slot.cls = .reg <;> simp [pushOperand, encodeOperand, h]
  | imm v => by_cases h : slot.cls = .reg <;> simp [pushOperand, encodeOperand, h]
  | expr e =>
    by_cases h : slot.cls = .reg
    · simp [pushOperand, encodeOperand, h]
    · cases hr : e.refers?.isNone with
      | true => simp [pushOperand, encodeOperand, h, hr]
      | false => cases hk : chooseFixup op slot e <;>
          simp [pushOperand, encodeOperand, h, hr, hk, bind, Except.bind, pure, Except.pure]

/-- What operands push, if all of them can be encoded; up to one that cannot they may have pushed
some. -/
theorem pushOperands_cases (op : Opcode) (word : UInt32) (index : Nat)
    (slots : List (Slot × Operand)) (fixups : List Fixup) :
    (∃ e more, encodeOperands op word index slots = .error e ∧
      pushOperands op word index slots fixups = (fixups ++ more, .error e)) ∨
    ∃ word' more, encodeOperands op word index slots = .ok (word', more) ∧
      pushOperands op word index slots fixups = (fixups ++ more, .ok word') := by
  induction slots generalizing word index fixups with
  | nil => exact .inr ⟨word, [], rfl, by simp [pushOperands]⟩
  | cons x rest ih =>
    obtain ⟨slot, operand⟩ := x
    rw [encodeOperands, pushOperands, pushOperand_eq]
    cases hx : encodeOperand op index slot operand with
    | error e => exact .inl ⟨e, [], rfl, by simp⟩
    | ok out =>
      obtain ⟨field, first⟩ := out
      rcases ih (word ||| slot.insert field) (index + 1) (fixups ++ first) with
        ⟨e, more, henc, hpush⟩ | ⟨word', more, henc, hpush⟩
      · refine .inl ⟨e, first ++ more, ?_, ?_⟩
        · simp [henc, bind, Except.bind]
        · rw [← List.append_assoc]
          exact hpush
      · refine .inr ⟨word', first ++ more, ?_, ?_⟩
        · simp [henc, bind, Except.bind, pure, Except.pure]
        · rw [← List.append_assoc]
          exact hpush

theorem Inst.push_eq (i : Inst) (fixups : List Fixup) :
    i.push fixups =
      match i.encode with
      | .error e => (fixups, .error e)
      | .ok (word, more) => (fixups ++ more, .ok word) := by
  unfold push encode
  cases i.opcode.layout? with
  | none => rfl
  | some l =>
    dsimp only
    split
    · rcases pushOperands_cases i.opcode l.fixedBits 0 (l.slots.zip i.operands) [] with
        ⟨e, more, henc, hpush⟩ | ⟨word, more, henc, hpush⟩
      · rw [henc, hpush]
      · rw [henc, hpush, List.nil_append]
    · rfl

namespace Assembly

/-! ## Operations in place -/

/-- Defines a symbol at the current offset. Its name is in the table before it is looked at. -/
def labelInPlace (a : Assembly) (name : String) : Assembly × Option AsmError :=
  let known := (a.symbols.find? name).getD ⟨none, 0, false⟩
  let entered := { a with symbols := a.symbols.insert name known }
  if known.home.isSome then (entered, some (.duplicateSymbol name))
  else
    let defined := ⟨some a.current, a.offset, known.isGlobal⟩
    ({ entered with symbols := entered.symbols.insert name defined }, none)

def instInPlace (a : Assembly) (i : Inst) : Assembly × Option AsmError :=
  match i.push [] with
  | (_, .error e) => (a, some (.encode e))
  | (fixups, .ok word) =>
    -- the offset is the one before the word
    ((a.append (wordBytes word) []).append []
      (fixups.map fun f => { f with offset := f.offset + a.offset }), none)

def valueInPlace (a : Assembly) (e : Expr) (size : Nat) : Assembly × Option AsmError :=
  match FixupKind.data? size with
  | none => (a, some (.unsupportedData size))
  | some kind =>
    match e.constant? with
    | some v => (a.append (leBytes size v.toUInt64.toNat) [], none)
    | none => ((a.append (List.replicate size 0) []).append [] [⟨a.offset, e, kind⟩], none)

/-- Performs an operation in place: what it leaves behind, and the error it reports. -/
def act (a : Assembly) : Operation → Assembly × Option AsmError
  | .enter name => (a.enter name, none)
  | .label name => a.labelInPlace name
  | .makeGlobal name => (a.makeGlobal name, none)
  | .inst i => a.instInPlace i
  | .value e size => a.valueInPlace e size
  | .bytes bs => (a.bytes bs, none)

/-- An operation reports its error to the caller, who goes on with what is left behind. -/
def reported (a : Assembly) : Except AsmError Assembly → Assembly × Option AsmError
  | .ok b => (b, none)
  | .error e => (a, some e)

theorem append_append (a : Assembly) (bytes : Bytes) (fixups : List Fixup) :
    (a.append bytes []).append [] fixups = a.append bytes fixups := by
  simp [append, List.modify_modify_eq, Function.comp_def]

theorem labelInPlace_eq (a : Assembly) (name : String) :
    a.labelInPlace name = a.reported (a.label name) := by
  unfold labelInPlace label
  cases hfind : a.symbols.find? name with
  | none =>
    dsimp only [Option.getD_none]
    rw [NameMap.insert_insert]
    rfl
  | some known =>
    dsimp only [Option.getD_some]
    -- what is entered for a name that is in the table is what is there
    rw [NameMap.insert_of_find? hfind]
    split <;> rfl

/-- An operation that fails leaves the assembly as it was. -/
theorem act_eq (a : Assembly) (op : Operation) : a.act op = a.reported (a.perform op) := by
  cases op with
  | enter name => rfl
  | label name => exact a.labelInPlace_eq name
  | makeGlobal name => rfl
  | inst i =>
    rw [act, instInPlace, Inst.push_eq, perform, inst]
    cases i.encode with
    | error e => rfl
    | ok out => simp only [List.nil_append, append_append, reported]
  | value e size =>
    rw [act, valueInPlace, perform, value]
    cases FixupKind.data? size with
    | none => rfl
    | some kind => cases e.constant? <;> simp only [append_append, reported]
  | bytes bs => rfl

/-! ## Sessions -/

/-- What the caller sees of an operation: its error, if any, and the current offset after it. -/
structure Answer where
  error : Option AsmError
  offset : UInt32
  deriving DecidableEq

/-- The answers to the operations of a session, in order. -/
def answers (a : Assembly) : List Operation → List Answer
  | [] => []
  | op :: rest => ⟨(a.act op).2, (a.act op).1.offset⟩ :: (a.act op).1.answers rest

/-- The assembly after a session. -/
def after (a : Assembly) : List Operation → Assembly
  | [] => a
  | op :: rest => (a.act op).1.after rest

/-- The operations of a session that report no error. -/
def succeeded (a : Assembly) : List Operation → List Operation
  | [] => []
  | op :: rest =>
    if (a.act op).2.isNone then op :: (a.act op).1.succeeded rest
    else (a.act op).1.succeeded rest

theorem act_of_error {a : Assembly} {op : Operation} {e : AsmError} (h : (a.act op).2 = some e) :
    (a.act op).1 = a := by
  rw [act_eq] at h ⊢
  cases hop : a.perform op with
  | ok b => rw [hop] at h; cases h
  | error e' => rfl

/-- A session leaves behind what its operations build, failed ones passed over. -/
theorem after_eq_run (a : Assembly) (ops : List Operation) : a.after ops = a.run ops := by
  induction ops generalizing a with
  | nil => rfl
  | cons op rest ih =>
    rw [after, act_eq, run, ih]
    cases a.perform op <;> rfl

theorem after_append (a : Assembly) (ops ops' : List Operation) :
    a.after (ops ++ ops') = (a.after ops).after ops' := by
  rw [after_eq_run, after_eq_run, after_eq_run, run_append]

theorem after_succeeded (a : Assembly) (ops : List Operation) :
    a.after (a.succeeded ops) = a.after ops := by
  induction ops generalizing a with
  | nil => rfl
  | cons op rest ih =>
    rw [succeeded, after]
    cases h : (a.act op).2 with
    | none => exact ih _
    | some e =>
      rw [act_of_error h]
      exact ih a

theorem answers_succeeded (a : Assembly) (ops : List Operation) :
    a.answers (a.succeeded ops) = (a.answers ops).filter (·.error.isNone) := by
  induction ops generalizing a with
  | nil => rfl
  | cons op rest ih =>
    rw [succeeded, answers, List.filter_cons]
    cases h : (a.act op).2 with
    | none =>
      simp only [Option.isNone_none, if_true]
      rw [answers, ih, h]
    | some e =>
      rw [act_of_error h]
      exact ih a

/-- Failed operations leave no trace: without them a session has the same answers to the others, with
the same offsets, and ends with the same object or error. -/
theorem session_without_failures (a : Assembly) (ops : List Operation) :
    a.answers (a.succeeded ops) = (a.answers ops).filter (·.error.isNone) ∧
      (a.after (a.succeeded ops)).finish = (a.after ops).finish ∧
      a.after ops = a.run ops := by
  refine ⟨a.answers_succeeded ops, ?_, a.after_eq_run ops⟩
  rw [after_succeeded]

example : (start true).answers [.label "x", .bytes [1, 2], .label "x", .value (.sym "x") 3] =
    [⟨none, 0⟩, ⟨none, 2⟩, ⟨some (.duplicateSymbol "x"), 2⟩, ⟨some (.unsupportedData 3), 2⟩] := by
  decide

end Assembly

end Dlx
