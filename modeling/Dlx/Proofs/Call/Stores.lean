import Dlx.Call.Sequence
import Dlx.Proofs.Call.Allocation
import Dlx.Proofs.Call.Machine
import Dlx.Proofs.Patch

/-!
# Arguments on the stack

A call first moves the stack pointer down by its frame and then stores what goes on the stack. All
this happens in the frame: no byte outside it changes, and of the registers only the stack pointer
and the scratch register do (`Entered`). So every argument, as long as it is held outside the frame,
is still what it was when its turn comes. Only the stack pointer itself has another value by then, so
it is said of each argument in which machine it is read (`Holder.origin`).

Results:
* `run_argSlots`: the stores run, and leave each argument's stack part, as it is read, in its slot.
-/
namespace Dlx

theorem imm16_eq_ok_iff {frame : Nat} {v : Int} {o : Int64} :
    imm16 frame v = .ok o ↔ (-0x8000 ≤ v ∧ v ≤ 0x7fff) ∧ o = Int64.ofInt v := by
  unfold imm16
  split
  · next h => simp [h, eq_comm]
  · next h => simp [h]

namespace Machine

/-- `x` is none of the `size` addresses from `low` on. -/
def Outside (low : UInt32) (size : Nat) (x : UInt32) : Prop := size ≤ (x - low).toNat

instance (low : UInt32) (size : Nat) (x : UInt32) : Decidable (Outside low size x) :=
  inferInstanceAs (Decidable (_ ≤ _))

/-- A write into an area leaves what is outside of it. -/
theorem mem_write_of_outside (m : Machine) {low x : UInt32} {size off : Nat} {bs : Bytes}
    (hx : Outside low size x) (hslot : off + bs.length ≤ size) :
    (m.write (low + UInt32.ofNat off) bs).mem x = m.mem x := by
  have hlt := (x - low).toNat_lt
  unfold Outside at hx
  have hdist := toNat_sub_offset low (j := off) hlt (by omega)
  rw [add_distance, if_pos (by omega)] at hdist
  exact mem_write_of_le m (by omega)

/-! ## Copies through a register -/

/-- A load and a store copy `size` bytes through a register. -/
def CopiesBytes (load store : Opcode) (size : Nat) : Prop :=
  ∀ (m : Machine) (scratch sp base : Reg) (offset : Int64) (dst : Nat), sp ≠ scratch →
    ∃ w, m.run [.regImm load scratch base offset, .regImm store scratch sp (Int64.ofNat dst)] =
      some ((m.setReg scratch w).write (m.regs sp + UInt32.ofNat dst)
        (m.read (m.regs base + immWord offset) size))

theorem copiesBytes_word : CopiesBytes .lw .sw 4 := by
  intro m scratch sp base offset dst hsp
  refine ⟨m.word (m.regs base + immWord offset), ?_⟩
  simp only [run, step, Inst.regImm, Option.bind_some, regs_setReg_self,
    regs_setReg_of_ne _ _ hsp, immWord_ofNat]
  rw [word, wordBytes_bytesWord (length_read _ _ _)]

theorem copiesBytes_byte : CopiesBytes .lbu .sb 1 := by
  intro m scratch sp base offset dst hsp
  refine ⟨(m.mem (m.regs base + immWord offset)).toUInt32, ?_⟩
  simp [run, step, Inst.regImm, regs_setReg_of_ne _ _ hsp, immWord_ofNat, read]

/-- The bytes from `src` on have been copied to `dst`, at the cost of one register. -/
structure Copied (scratch : Reg) (m m' : Machine) (dst src : UInt32) (n : Nat) : Prop where
  mem : m'.mem = (m.write dst (m.read src n)).mem
  regs : ∀ r, r ≠ scratch → m'.regs r = m.regs r

/-- Copies to adjoining places of an area that the source is outside of. -/
theorem Copied.append {scratch : Reg} {m m₁ m₂ : Machine} {low src : UInt32} {size off n k : Nat}
    (h₁ : Copied scratch m m₁ (low + UInt32.ofNat off) src n)
    (h₂ : Copied scratch m₁ m₂ (low + UInt32.ofNat (off + n)) (src + UInt32.ofNat n) k)
    (hslot : off + (n + k) ≤ size) (hsize : size ≤ 0x100000000)
    (hout : ∀ i < n + k, Outside low size (src + UInt32.ofNat i)) :
    Copied scratch m m₂ (low + UInt32.ofNat off) src (n + k) where
  mem := by
    have hread : m₁.read (src + UInt32.ofNat n) k = m.read (src + UInt32.ofNat n) k := by
      refine read_congr fun i hi => ?_
      rw [h₁.mem, UInt32.add_assoc, ← UInt32.ofNat_add]
      exact mem_write_of_outside m (hout (n + i) (by omega)) (by simp; omega)
    have hjoin := write_write m (low + UInt32.ofNat off) (m.read src n)
      (m.read (src + UInt32.ofNat n) k) (by simp; omega)
    rw [length_read, UInt32.add_assoc, ← UInt32.ofNat_add] at hjoin
    rw [read_add, ← hjoin, h₂.mem, hread]
    simp only [write, h₁.mem]
  regs r hr := (h₂.regs r hr).trans (h₁.regs r hr)

end Machine

open Machine

section Copies

variable {roles : RegisterRoles} {frame : Nat} {base : Reg} {src : Int} {dst : Nat} {is : List Inst}
  (m : Machine) (hsp : roles.sp ≠ roles.scratch) (hbase : base ≠ roles.scratch)
  (hframe : frame ≤ 0x100000000)
include hsp hbase hframe

theorem run_copyPieces {load store : Opcode} {size count : Nat}
    (hcopies : CopiesBytes load store size)
    (h : copyPieces roles frame load store size base count src dst = .ok is)
    (hslot : dst + size * count ≤ frame)
    (hout : ∀ i < size * count,
      Outside (m.regs roles.sp) frame (m.regs base + UInt32.ofInt src + UInt32.ofNat i)) :
    ∃ m', m.run is = some m' ∧ Copied roles.scratch m m' (m.regs roles.sp + UInt32.ofNat dst)
      (m.regs base + UInt32.ofInt src) (size * count) := by
  induction count generalizing src dst is m with
  | zero =>
    cases h
    exact ⟨m, rfl, by simp [Machine.write, Machine.read], fun _ _ => rfl⟩
  | succ count ih =>
    simp only [copyPieces, copyPiece, Except.bind_eq_ok_iff, imm16_eq_ok_iff] at h
    obtain ⟨piece, ⟨offset, ⟨-, rfl⟩, hpiece⟩, rest, hrest, his⟩ := h
    cases hpiece
    cases his
    obtain ⟨w, hrun⟩ := hcopies m roles.scratch roles.sp base (Int64.ofInt src) dst hsp
    rw [immWord_ofInt] at hrun
    have hregs : ∀ r, r ≠ roles.scratch → (m.setReg roles.scratch w).regs r = m.regs r :=
      fun r hr => regs_setReg_of_ne m w hr
    have hfirst : Copied roles.scratch m
        ((m.setReg roles.scratch w).write (m.regs roles.sp + UInt32.ofNat dst)
          (m.read (m.regs base + UInt32.ofInt src) size))
        (m.regs roles.sp + UInt32.ofNat dst) (m.regs base + UInt32.ofInt src) size :=
      ⟨rfl, hregs⟩
    have hnext : m.regs base + UInt32.ofInt (src + size) =
        m.regs base + UInt32.ofInt src + UInt32.ofNat size := by
      rw [UInt32.ofInt_add, ofInt_natCast, UInt32.add_assoc]
    rw [Nat.mul_succ, Nat.add_comm] at hout hslot ⊢
    obtain ⟨m', hrun', hcopied⟩ :=
      ih ((m.setReg roles.scratch w).write (m.regs roles.sp + UInt32.ofNat dst)
          (m.read (m.regs base + UInt32.ofInt src) size)) hrest (by omega) (by
        intro i hi
        rw [regs_write, hregs _ hsp, hregs _ hbase, hnext, UInt32.add_assoc, ← UInt32.ofNat_add]
        exact hout (size + i) (by omega))
    rw [regs_write, hregs _ hsp, hregs _ hbase, hnext] at hcopied
    refine ⟨m', ?_, hfirst.append hcopied (by omega) hframe hout⟩
    rw [run_append_of_run hrun, hrun']

theorem run_copyToStack {size : Nat} (h : copyToStack roles frame base src dst size = .ok is)
    (hslot : dst + size ≤ frame)
    (hout : ∀ i < size,
      Outside (m.regs roles.sp) frame (m.regs base + UInt32.ofInt src + UInt32.ofNat i)) :
    ∃ m', m.run is = some m' ∧ Copied roles.scratch m m' (m.regs roles.sp + UInt32.ofNat dst)
      (m.regs base + UInt32.ofInt src) size := by
  simp only [copyToStack, Except.bind_eq_ok_iff] at h
  obtain ⟨words, hwords, rest, hrest, his⟩ := h
  cases his
  obtain ⟨m₁, hrun₁, hcopied₁⟩ := run_copyPieces m hsp hbase hframe copiesBytes_word hwords
    (by omega) fun i hi => hout i (by omega)
  have hnext : m.regs base + UInt32.ofInt (src + 4 * (size / 4 : Nat)) =
      m.regs base + UInt32.ofInt src + UInt32.ofNat (4 * (size / 4)) := by
    rw [UInt32.ofInt_add, UInt32.add_assoc, ← ofInt_natCast (4 * (size / 4))]
    rfl
  obtain ⟨m₂, hrun₂, hcopied₂⟩ := run_copyPieces m₁ hsp hbase hframe copiesBytes_byte hrest
    (by omega) (by
      intro i hi
      rw [hcopied₁.regs _ hsp, hcopied₁.regs _ hbase, hnext, UInt32.add_assoc, ← UInt32.ofNat_add]
      exact hout (4 * (size / 4) + i) (by omega))
  rw [hcopied₁.regs _ hsp, hcopied₁.regs _ hbase, hnext] at hcopied₂
  have hsum : 4 * (size / 4) + 1 * (size % 4) = size := by omega
  refine ⟨m₂, by rw [run_append_of_run hrun₁, hrun₂], ?_⟩
  rw [← hsum] at hout hslot
  exact hsum ▸ hcopied₁.append hcopied₂ hslot hframe hout

end Copies

/-! ## The frame -/

/-- The frame has been entered: the stack pointer has moved down by its size, and since then only
the frame itself and, if something was copied, the scratch register have changed. -/
structure Entered (roles : RegisterRoles) (frame : Nat) (copies : Bool) (m₀ m : Machine) : Prop where
  sp : m.regs roles.sp = m₀.regs roles.sp - UInt32.ofNat frame
  regs : ∀ r, r ≠ roles.sp → (copies = true → r ≠ roles.scratch) → m.regs r = m₀.regs r
  mem : ∀ x, Outside (m₀.regs roles.sp - UInt32.ofNat frame) frame x → m.mem x = m₀.mem x

/-- The bytes that belong into the stack part of a location. -/
def Holder.stackBytes (m₀ : Machine) (holder : Holder) : Location → Bytes
  | .stack _ _ =>
    match holder with
    | .reg r => wordBytes (m₀.regs r)
    | .pair lo hi => wordBytes (m₀.regs lo) ++ wordBytes (m₀.regs hi)
    | .memory _ _ => []
  | .aggregate regs _ size =>
    match holder with
    | .memory base offset =>
      m₀.read (m₀.regs base + UInt32.ofInt offset + UInt32.ofNat (4 * regs.length)) size
    | _ => []
  | _ => []

/-- The machine once the stack pointer has moved down by the frame. -/
def Machine.lowered (m : Machine) (sp : Reg) (frame : Nat) : Machine :=
  m.setReg sp (m.regs sp - UInt32.ofNat frame)

/-- The machine in which an argument is read. The address of an aggregate is reckoned from where the
stack pointer was, but a register is read as it is when the stack pointer has moved. -/
def Holder.origin (roles : RegisterRoles) (frame : Nat) (m₀ : Machine) : Holder → Machine
  | .memory _ _ => m₀
  | _ => m₀.lowered roles.sp frame

/-- What the stores for one argument rely on: it is not held in the scratch register if that is in
use, and the bytes that are copied into its slot of the frame come from outside. -/
structure SlotReady (roles : RegisterRoles) (frame : Nat) (copies : Bool) (m₀ : Machine)
    (holder : Holder) (loc : Location) : Prop where
  unscratched : copies = true → holder.involves roles.scratch = false
  outside : ∀ base offset, holder = .memory base offset → ∀ i < loc.stackSize,
    Outside (m₀.regs roles.sp - UInt32.ofNat frame) frame
      (m₀.regs base + UInt32.ofInt offset + UInt32.ofNat (4 * loc.regs.length + i))
  length : (holder.stackBytes (holder.origin roles frame m₀) loc).length = loc.stackSize
  copies : loc.copiesToStack = true → copies = true
  slot : loc.stackOffset + loc.stackSize ≤ frame

section Frame

variable {roles : RegisterRoles} {frame : Nat} {copies : Bool} {m₀ m : Machine}

theorem SlotReady.ne_scratch {holder : Holder} {loc : Location}
    (h : SlotReady roles frame copies m₀ holder loc) {r : Reg} (hr : holder.involves r = true) :
    copies = true → r ≠ roles.scratch := by
  rintro hcopies rfl
  rw [h.unscratched hcopies] at hr
  cases hr

theorem run_adjustStack (roles : RegisterRoles) (frame : Nat) (copies : Bool) (m₀ : Machine) :
    ∃ m, m₀.run (adjustStack roles (-frame)) = some m ∧ m.mem = m₀.mem ∧
      Entered roles frame copies m₀ m := by
  unfold adjustStack
  split
  · next h =>
    obtain rfl : frame = 0 := by omega
    exact ⟨m₀, rfl, rfl, by simp, fun _ _ _ => rfl, fun _ _ => rfl⟩
  · refine ⟨m₀.setReg roles.sp (m₀.regs roles.sp + immWord (Int64.ofInt (-frame))), rfl, rfl, ?_,
      fun r hr _ => regs_setReg_of_ne _ _ hr, fun _ _ => rfl⟩
    rw [regs_setReg_self, immWord_ofInt, UInt32.ofInt_neg, ofInt_natCast, UInt32.sub_eq_add_neg]

/-- Registers are as they were when the stack pointer had moved. -/
theorem Entered.regs_lowered (h : Entered roles frame copies m₀ m) {r : Reg}
    (hr : copies = true → r ≠ roles.scratch) :
    m.regs r = (m₀.lowered roles.sp frame).regs r := by
  by_cases hsp : r = roles.sp
  · rw [hsp, h.sp, Machine.lowered, regs_setReg_self]
  · rw [h.regs r hsp hr, Machine.lowered, regs_setReg_of_ne _ _ hsp]

/-- An aggregate is still at its address, reckoned from the new stack pointer if need be. -/
theorem Entered.held_address (h : Entered roles frame copies m₀ m) {base : Reg} (offset : Int)
    (hbase : copies = true → base ≠ roles.scratch) :
    m.regs base + UInt32.ofInt (heldOffset roles frame base offset) =
      m₀.regs base + UInt32.ofInt offset := by
  unfold heldOffset
  split
  · next heq =>
    rw [heq, h.sp, UInt32.ofInt_add, ofInt_natCast]
    grind
  · next hne => rw [h.regs base hne hbase]

/-- Writing into a slot of the frame. -/
theorem Entered.write (h : Entered roles frame copies m₀ m) {m' : Machine} {off : Nat} {bs : Bytes}
    (hmem : m'.mem = (m.write (m₀.regs roles.sp - UInt32.ofNat frame + UInt32.ofNat off) bs).mem)
    (hregs : ∀ r, (copies = true → r ≠ roles.scratch) → m'.regs r = m.regs r)
    (hsp : roles.sp ≠ roles.scratch) (hslot : off + bs.length ≤ frame) :
    Entered roles frame copies m₀ m' where
  sp := by rw [hregs _ fun _ => hsp, h.sp]
  regs r hr hscratch := by rw [hregs r hscratch, h.regs r hr hscratch]
  mem x hx := by rw [hmem, mem_write_of_outside m hx hslot, h.mem x hx]

variable (hsp : roles.sp ≠ roles.scratch) (hframe : frame ≤ 0x100000000)
include hsp hframe

/-- The stores for one argument put its stack part into its slot. -/
theorem run_argSequence {index : Nat} {holder : Holder} {loc : Location} {stores : List Inst}
    {moves : List Move} (h : argSequence roles frame index holder loc = .ok (stores, moves))
    (hent : Entered roles frame copies m₀ m) (hs : SlotReady roles frame copies m₀ holder loc) :
    ∃ m', m.run stores = some m' ∧ Entered roles frame copies m₀ m' ∧
      m'.mem = (m.write (m₀.regs roles.sp - UInt32.ofNat frame + UInt32.ofNat loc.stackOffset)
        (holder.stackBytes (holder.origin roles frame m₀) loc)).mem := by
  have hslot := hs.slot
  rw [← hs.length] at hslot
  -- With nothing to store, the slot is empty.
  have hnone : holder.stackBytes (holder.origin roles frame m₀) loc = [] →
      ∃ m', m.run [] = some m' ∧ Entered roles frame copies m₀ m' ∧
      m'.mem = (m.write (m₀.regs roles.sp - UInt32.ofNat frame + UInt32.ofNat loc.stackOffset)
        (holder.stackBytes (holder.origin roles frame m₀) loc)).mem := by
    intro hnil
    exact ⟨m, rfl, hent, by simp [hnil, Machine.write]⟩
  unfold argSequence at h
  split at h
  · cases h
    exact hnone rfl
  · cases h
    exact hnone rfl
  · next offset _ src =>
    cases h
    have hsrc := hent.regs_lowered (hs.ne_scratch (r := src) (by simp [Holder.involves]))
    have hmem : m.run [.regImm .sw src roles.sp (Int64.ofNat offset)] =
        some (m.write (m₀.regs roles.sp - UInt32.ofNat frame + UInt32.ofNat offset)
          (wordBytes ((m₀.lowered roles.sp frame).regs src))) := by
      simp [run, step, Inst.regImm, immWord_ofNat, hent.sp, hsrc]
    exact ⟨_, hmem, hent.write rfl (fun _ _ => rfl) hsp hslot, rfl⟩
  · next offset _ lo hi =>
    cases h
    have hlo := hent.regs_lowered (hs.ne_scratch (r := lo) (by simp [Holder.involves]))
    have hhi := hent.regs_lowered (hs.ne_scratch (r := hi) (by simp [Holder.involves]))
    have hjoin := write_write m (m₀.regs roles.sp - UInt32.ofNat frame + UInt32.ofNat offset)
      (wordBytes (m.regs lo)) (wordBytes (m.regs hi)) (by simp [wordBytes, length_leBytes])
    rw [show (wordBytes (m.regs lo)).length = 4 from length_leBytes 4 _, UInt32.add_assoc,
      ← UInt32.ofNat_add, hlo, hhi] at hjoin
    have hmem : m.run [.regImm .sw lo roles.sp (Int64.ofNat offset),
          .regImm .sw hi roles.sp (Int64.ofNat (offset + 4))] =
        some (m.write (m₀.regs roles.sp - UInt32.ofNat frame + UInt32.ofNat offset)
          (wordBytes ((m₀.lowered roles.sp frame).regs lo) ++
            wordBytes ((m₀.lowered roles.sp frame).regs hi))) := by
      rw [← hjoin]
      simp only [run, step, Inst.regImm, immWord_ofNat, hent.sp, hlo, hhi, Option.bind_some,
        regs_write]
    exact ⟨_, hmem, hent.write rfl (fun _ _ => rfl) hsp hslot, rfl⟩
  · next regs offset size base start =>
    simp only [Except.bind_eq_ok_iff] at h
    obtain ⟨_, -, copied, hcopy, hout⟩ := h
    cases hout
    by_cases hsize : size = 0
    · subst hsize
      cases hcopy
      exact hnone (by simp [Holder.stackBytes, Machine.read])
    · have hcopies : copies = true := hs.copies (by simpa [Location.copiesToStack] using by omega)
      have hbase : base ≠ roles.scratch := hs.ne_scratch (by simp [Holder.involves]) hcopies
      have hsrc : m.regs base + UInt32.ofInt (heldOffset roles frame base start + 4 * regs.length) =
          m₀.regs base + UInt32.ofInt start + UInt32.ofNat (4 * regs.length) := by
        rw [UInt32.ofInt_add, ← UInt32.add_assoc, hent.held_address start fun _ => hbase,
          ← ofInt_natCast (4 * regs.length)]
        rfl
      obtain ⟨m', hrun, hcopied⟩ := run_copyToStack m hsp hbase hframe hcopy hs.slot (by
        intro i hi
        rw [hsrc, hent.sp, UInt32.add_assoc, ← UInt32.ofNat_add]
        exact hs.outside base start rfl i hi)
      have hread : m.read (m.regs base +
            UInt32.ofInt (heldOffset roles frame base start + 4 * regs.length)) size =
          m₀.read (m₀.regs base + UInt32.ofInt start + UInt32.ofNat (4 * regs.length)) size := by
        rw [hsrc]
        refine read_congr fun i hi => hent.mem _ ?_
        rw [UInt32.add_assoc, ← UInt32.ofNat_add]
        exact hs.outside base start rfl i hi
      have hmem := hcopied.mem
      rw [hread, hent.sp] at hmem
      exact ⟨m', hrun, hent.write hmem (fun r hr => hcopied.regs r (hr hcopies)) hsp hslot, hmem⟩
  all_goals cases h

/-- The stores for all arguments put each stack part, as it is read, into its slot. -/
theorem run_argSlots {index : Nat} {pairs : List (Holder × Location)} {stores : List Inst}
    {moves : List Move} (h : argSequences roles frame index pairs = .ok (stores, moves))
    (hent : Entered roles frame copies m₀ m)
    (hs : ∀ p ∈ pairs, SlotReady roles frame copies m₀ p.1 p.2)
    (hordered : (pairs.map (·.2)).Pairwise Location.Before) :
    ∃ m', m.run stores = some m' ∧ Entered roles frame copies m₀ m' ∧
      (∀ x, (∀ p ∈ pairs, Outside
        (m₀.regs roles.sp - UInt32.ofNat frame + UInt32.ofNat p.2.stackOffset) p.2.stackSize x) →
        m'.mem x = m.mem x) ∧
      ∀ p ∈ pairs, m'.read (m₀.regs roles.sp - UInt32.ofNat frame + UInt32.ofNat p.2.stackOffset)
        p.2.stackSize = p.1.stackBytes (p.1.origin roles frame m₀) p.2 := by
  induction pairs generalizing index stores moves m with
  | nil =>
    cases h
    exact ⟨m, rfl, hent, fun _ _ => rfl, by simp⟩
  | cons p rest ih =>
    obtain ⟨holder, loc⟩ := p
    simp only [argSequences, Except.bind_eq_ok_iff] at h
    obtain ⟨⟨stores₁, moves₁⟩, h₁, ⟨stores₂, moves₂⟩, h₂, hout⟩ := h
    cases hout
    obtain ⟨hfirst, hrest⟩ := List.forall_mem_cons.mp hs
    obtain ⟨hbefore, hordered⟩ := List.pairwise_cons.mp hordered
    rw [List.forall_mem_map] at hbefore
    obtain ⟨m₁, hrun₁, hent₁, hmem₁⟩ := run_argSequence hsp hframe h₁ hent hfirst
    obtain ⟨m₂, hrun₂, hent₂, hkept, hslots⟩ := ih h₂ hent₁ hrest hordered
    refine ⟨m₂, by rw [run_append_of_run hrun₁, hrun₂], hent₂, ?_, ?_⟩
    · intro x hx
      obtain ⟨hx₁, hx₂⟩ := List.forall_mem_cons.mp hx
      rw [hkept x hx₂, hmem₁]
      exact mem_write_of_le m (hfirst.length ▸ hx₁)
    · refine List.forall_mem_cons.mpr ⟨?_, hslots⟩
      -- Later slots lie behind this one, so what was stored here stays.
      have hstays : m₂.read (m₀.regs roles.sp - UInt32.ofNat frame + UInt32.ofNat loc.stackOffset)
          loc.stackSize = m₁.read
            (m₀.regs roles.sp - UInt32.ofNat frame + UInt32.ofNat loc.stackOffset)
            loc.stackSize := by
        refine read_congr fun i hi => hkept _ fun q hq => ?_
        have hq' := (hrest q hq).slot
        have hbehind : loc.Before q.2 := hbefore q hq
        unfold Outside
        rw [UInt32.add_assoc, ← UInt32.ofNat_add]
        by_cases hzero : q.2.stackSize = 0
        · omega
        · have := hbehind (by omega) hzero
          rw [toNat_sub_offset _ (by omega) (by omega), if_neg (by omega)]
          omega
      have hself := read_write_self m
        (m₀.regs roles.sp - UInt32.ofNat frame + UInt32.ofNat loc.stackOffset)
        (holder.stackBytes (holder.origin roles frame m₀) loc)
        (by rw [hfirst.length]; have := hfirst.slot; omega)
      rw [hfirst.length] at hself
      rw [hstays, ← hself]
      exact read_congr fun i _ => by rw [hmem₁]

end Frame

end Dlx
