import Dlx.Encoding
import Dlx.Proofs.Patch
import Mathlib.Data.List.Basic

/-!
# When an instruction can be encoded

Operands are encoded one by one, each by itself. So it is said for one operand and its slot when it
is taken, which bits it gives and which fixup it asks for; an instruction is the collection of these.

Results:
* `Inst.encode_eq_ok_iff`: an instruction is encoded exactly if its opcode has a layout with a slot
  for each operand that suits it; the word collects the fields, and the fixups are those of the
  operands.
-/
namespace Dlx

namespace Operand

/-- The encoder takes the operand in a slot. -/
def Suits (op : Opcode) (slot : Slot) : Operand → Prop
  | .reg _ => slot.cls = .reg
  | .imm _ => slot.cls ≠ .reg
  | .expr e => slot.cls ≠ .reg ∧ e.refers?.isSome ∧ (fixupKind? op slot.cls e.marker).isSome

/-- The bits of the operand in a slot, before they are cut to it. -/
def field (slot : Slot) : Operand → UInt32
  | .reg r => UInt32.ofNat r.num.val
  | .imm v => immediateBits slot.cls v
  | .expr _ => 0

/-- The fixup that the operand asks for. -/
def fixup? (op : Opcode) (slot : Slot) : Operand → Option Fixup
  | .expr e => (fixupKind? op slot.cls e.marker).map fun kind => ⟨0, e, kind⟩
  | _ => none

end Operand

theorem encodeOperand_eq_ok_iff {op : Opcode} {index : Nat} {slot : Slot} {operand : Operand}
    {r : UInt32 × List Fixup} :
    encodeOperand op index slot operand = .ok r ↔
      operand.Suits op slot ∧ (operand.field slot, (operand.fixup? op slot).toList) = r := by
  cases operand with
  | reg n => by_cases h : slot.cls = .reg <;> simp [encodeOperand, Operand.Suits, Operand.field,
      Operand.fixup?, h]
  | imm v => by_cases h : slot.cls = .reg <;> simp [encodeOperand, Operand.Suits, Operand.field,
      Operand.fixup?, h]
  | expr e =>
    by_cases h : slot.cls = .reg
    · simp [encodeOperand, Operand.Suits, h]
    · cases hr : e.refers? with
      | none => simp [encodeOperand, Operand.Suits, h, hr]
      | some ref =>
        cases hk : fixupKind? op slot.cls e.marker <;>
          simp [encodeOperand, chooseFixup, Operand.Suits, Operand.field, Operand.fixup?, h, hr, hk,
            bind, Except.bind, pure, Except.pure]

theorem encodeOperands_eq_ok_iff {op : Opcode} {word : UInt32} {index : Nat}
    {slots : List (Slot × Operand)} {r : UInt32 × List Fixup} :
    encodeOperands op word index slots = .ok r ↔
      (∀ x ∈ slots, x.2.Suits op x.1) ∧
        (slots.foldl (fun w x => w ||| x.1.insert (x.2.field x.1)) word,
          slots.filterMap fun x => x.2.fixup? op x.1) = r := by
  induction slots generalizing word index r with
  | nil => simp [encodeOperands]
  | cons x rest ih =>
    obtain ⟨slot, operand⟩ := x
    simp only [encodeOperands, Except.bind_eq_ok_iff, Prod.exists, encodeOperand_eq_ok_iff, ih,
      List.forall_mem_cons, List.foldl_cons, List.filterMap_eq_flatMap_toList, List.flatMap_cons,
      Prod.mk.injEq]
    constructor
    · rintro ⟨_, _, ⟨hsuits, rfl, rfl⟩, _, _, ⟨hrest, rfl, rfl⟩, h⟩
      exact ⟨⟨hsuits, hrest⟩, Except.ok.inj h⟩
    · rintro ⟨⟨hsuits, hrest⟩, rfl⟩
      exact ⟨_, _, ⟨hsuits, rfl, rfl⟩, _, _, ⟨hrest, rfl, rfl⟩, rfl⟩

theorem Inst.encode_eq_ok_iff {i : Inst} {r : UInt32 × List Fixup} :
    i.encode = .ok r ↔
      ∃ layout, i.opcode.layout? = some layout ∧ i.operands.length = layout.slots.length ∧
        (∀ x ∈ layout.slots.zip i.operands, x.2.Suits i.opcode x.1) ∧
        ((layout.slots.zip i.operands).foldl (fun w x => w ||| x.1.insert (x.2.field x.1))
            layout.fixedBits,
          (layout.slots.zip i.operands).filterMap fun x => x.2.fixup? i.opcode x.1) = r := by
  unfold Inst.encode
  cases hl : i.opcode.layout? with
  | none => simp
  | some layout =>
    by_cases hlen : i.operands.length = layout.slots.length <;>
      simp [hlen, encodeOperands_eq_ok_iff]

/-- The instruction is encoded as a word with a field that is to be filled, by a relocation of a
type, from a symbol at a distance. -/
def Inst.EncodesReference (i : Inst) (word : UInt32) (ty : RelocType) (symbol : String)
    (addend : Int64) : Prop :=
  ∃ f m, i.encode = .ok (word, [f]) ∧ f.kind.relocType? = some ty ∧
    f.value.refers? = some ⟨m, some symbol, none, addend⟩

theorem Inst.EncodesReference.encode {i : Inst} {word : UInt32} {ty : RelocType} {symbol : String}
    {addend : Int64} (h : i.EncodesReference word ty symbol addend) :
    ∃ f, i.encode = .ok (word, [f]) := by
  obtain ⟨f, -, h, -⟩ := h
  exact ⟨f, h⟩

end Dlx
