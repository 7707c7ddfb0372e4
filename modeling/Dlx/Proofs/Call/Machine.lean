import Dlx.Bytes
import Dlx.Inst
import Mathlib.Data.List.GetD

/-!
# A machine for straight-line code

Just enough of the machine to run what a call emits before its jump: registers are independent
cells, memory is bytes, numbers in it are little-endian, and addresses wrap at 2^32. An instruction
outside this part of the machine, such as the jump itself, does not run.

An address is compared with another by the distance `x - a`, which wraps too: `x` is one of the `n`
addresses from `a` on exactly if `(x - a).toNat < n`.
-/
namespace Dlx

structure Machine where
  regs : Reg → UInt32
  mem : UInt32 → UInt8

/-- The word that an immediate stands for. -/
def immWord (v : Int64) : UInt32 := v.toUInt64.toUInt32

namespace Machine

def setReg (m : Machine) (r : Reg) (w : UInt32) : Machine :=
  { m with regs := fun x => if x = r then w else m.regs x }

/-- The `n` bytes from `a` on. -/
def read (m : Machine) (a : UInt32) (n : Nat) : Bytes :=
  (List.range n).map fun i => m.mem (a + UInt32.ofNat i)

/-- Puts bytes into memory from `a` on. -/
def write (m : Machine) (a : UInt32) (bs : Bytes) : Machine :=
  { m with mem := fun x => bs.getD (x - a).toNat (m.mem x) }

/-- The word at an address. -/
def word (m : Machine) (a : UInt32) : UInt32 := bytesWord (m.read a 4)

def step (m : Machine) : Inst → Option Machine
  | ⟨.addi, [.reg rd, .reg rs, .imm v]⟩ => some (m.setReg rd (m.regs rs + immWord v))
  | ⟨.lw, [.reg rd, .reg base, .imm v]⟩ => some (m.setReg rd (m.word (m.regs base + immWord v)))
  | ⟨.lbu, [.reg rd, .reg base, .imm v]⟩ =>
    some (m.setReg rd (m.mem (m.regs base + immWord v)).toUInt32)
  | ⟨.sw, [.reg rs, .reg base, .imm v]⟩ =>
    some (m.write (m.regs base + immWord v) (wordBytes (m.regs rs)))
  | ⟨.sb, [.reg rs, .reg base, .imm v]⟩ =>
    some (m.write (m.regs base + immWord v) [(m.regs rs).toUInt8])
  | _ => none

/-- Runs instructions in order. -/
def run (m : Machine) : List Inst → Option Machine
  | [] => some m
  | i :: rest => (m.step i).bind fun m' => m'.run rest

/-! ## Registers -/

@[simp] theorem regs_setReg_self (m : Machine) (r : Reg) (w : UInt32) :
    (m.setReg r w).regs r = w := if_pos rfl

theorem regs_setReg_of_ne (m : Machine) {r x : Reg} (w : UInt32) (h : x ≠ r) :
    (m.setReg r w).regs x = m.regs x := if_neg h

@[simp] theorem mem_setReg (m : Machine) (r : Reg) (w : UInt32) : (m.setReg r w).mem = m.mem := rfl

@[simp] theorem regs_write (m : Machine) (a : UInt32) (bs : Bytes) :
    (m.write a bs).regs = m.regs := rfl

/-! ## Runs -/

theorem run_append (m : Machine) (is js : List Inst) :
    m.run (is ++ js) = (m.run is).bind fun m' => m'.run js := by
  induction is generalizing m with
  | nil => rfl
  | cons i is ih =>
    simp only [List.cons_append, run]
    cases m.step i with
    | none => rfl
    | some m' => exact ih m'

theorem run_append_of_run {m m' : Machine} {is : List Inst} (h : m.run is = some m')
    (js : List Inst) : m.run (is ++ js) = m'.run js := by
  rw [run_append, h]
  rfl

/-- What runs holds no jump. -/
theorem ne_jal_of_run {m m' : Machine} {is : List Inst} (h : m.run is = some m') :
    ∀ i ∈ is, i.opcode ≠ .jal := by
  induction is generalizing m with
  | nil => simp
  | cons i is ih =>
    rw [run, Option.bind_eq_some_iff] at h
    obtain ⟨m₁, hstep, hrest⟩ := h
    refine List.forall_mem_cons.mpr ⟨?_, ih hrest⟩
    obtain ⟨op, operands⟩ := i
    rintro rfl
    simp [step] at hstep

/-! ## Addresses -/

theorem immWord_ofInt (v : Int) : immWord (Int64.ofInt v) = UInt32.ofInt v := by
  apply UInt32.toNat_inj.mp
  have h : (Int64.ofInt v).toUInt64.toNat = (v % 2 ^ 64).toNat := BitVec.toNat_ofInt v
  rw [immWord, UInt64.toNat_toUInt32, h, UInt32.ofInt, UInt32.toNat_ofNat']
  omega

theorem ofInt_natCast (n : Nat) : UInt32.ofInt (n : Int) = UInt32.ofNat n := by
  apply UInt32.toNat_inj.mp
  rw [UInt32.ofInt, UInt32.toNat_ofNat', UInt32.toNat_ofNat']
  omega

theorem immWord_ofNat (n : Nat) : immWord (Int64.ofNat n) = UInt32.ofNat n := by
  rw [← ofInt_natCast, ← immWord_ofInt, Int64.ofInt_eq_ofNat]

/-- The distance between two places of an area that is no larger than the memory. -/
theorem toNat_sub_offset (a : UInt32) {i j : Nat} (hi : i < 0x100000000) (hj : j < 0x100000000) :
    (a + UInt32.ofNat i - (a + UInt32.ofNat j)).toNat =
      if j ≤ i then i - j else 0x100000000 + i - j := by
  have hcancel : a + UInt32.ofNat i - (a + UInt32.ofNat j) = UInt32.ofNat i - UInt32.ofNat j := by
    grind
  rw [hcancel, UInt32.toNat_sub, UInt32.toNat_ofNat', UInt32.toNat_ofNat']
  split <;> omega

theorem add_distance (x a : UInt32) : a + UInt32.ofNat (x - a).toNat = x := by
  rw [UInt32.ofNat_toNat]
  grind

/-! ## Memory -/

@[simp] theorem length_read (m : Machine) (a : UInt32) (n : Nat) : (m.read a n).length = n := by
  simp [read]

theorem read_congr {m m' : Machine} {a : UInt32} {n : Nat}
    (h : ∀ i < n, m.mem (a + UInt32.ofNat i) = m'.mem (a + UInt32.ofNat i)) :
    m.read a n = m'.read a n :=
  List.map_congr_left fun i hi => h i (List.mem_range.mp hi)

theorem read_add (m : Machine) (a : UInt32) (n k : Nat) :
    m.read a (n + k) = m.read a n ++ m.read (a + UInt32.ofNat n) k := by
  simp only [read, List.range_add, List.map_append, List.map_map]
  congr 1
  refine List.map_congr_left fun i _ => ?_
  simp [UInt32.add_assoc]

theorem mem_write_of_le (m : Machine) {a x : UInt32} {bs : Bytes} (h : bs.length ≤ (x - a).toNat) :
    (m.write a bs).mem x = m.mem x := by
  simp [write, h]

theorem read_write_self (m : Machine) (a : UInt32) (bs : Bytes) (h : bs.length ≤ 0x100000000) :
    (m.write a bs).read a bs.length = bs := by
  apply List.ext_getElem (by simp)
  intro i hi hi'
  have hdist : (a + UInt32.ofNat i - a).toNat = i := by
    have := toNat_sub_offset a (i := i) (j := 0) (by omega) (by omega)
    simpa using this
  simp only [read, write, List.getElem_map, List.getElem_range, hdist]
  rw [List.getD_eq_getElem?_getD, List.getElem?_eq_getElem hi', Option.getD_some]

/-- Writing bytes in two pieces. -/
theorem write_write (m : Machine) (a : UInt32) (bs cs : Bytes)
    (h : bs.length + cs.length ≤ 0x100000000) :
    (m.write a bs).write (a + UInt32.ofNat bs.length) cs = m.write a (bs ++ cs) := by
  simp only [write, Machine.mk.injEq, true_and]
  funext x
  rcases Nat.eq_zero_or_pos cs.length with hcs | hcs
  · simp [List.eq_nil_of_length_eq_zero hcs]
  have hx := toNat_sub_offset a (x - a).toNat_lt (j := bs.length) (by omega)
  rw [add_distance] at hx
  rw [hx]
  split
  · next hle => rw [List.getD_append_right _ _ _ _ hle]; simp [hle]
  · next hlt =>
    have := (x - a).toNat_lt
    rw [List.getD_append _ _ _ _ (by omega), List.getD_eq_default _ _ (by omega)]

end Machine

end Dlx
