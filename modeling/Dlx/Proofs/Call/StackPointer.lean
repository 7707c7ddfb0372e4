import Dlx.Proofs.Call.Acceptance

/-!
# Arguments that are held in the stack pointer

A call moves the stack pointer before it reads its arguments. The address of an aggregate is corrected
by the frame, so that memory which is addressed off the stack pointer is found where it was. A register
is read as it is: an argument that is held in the stack pointer itself arrives as where the stack
pointer is then, lower by the frame. It is the only register of which this is so.

Results:
* `delivered_iff_not_in_stackPointer`: which arguments are delivered as they were.
-/
namespace Dlx

open Machine

/-- Moving the stack pointer changes it, and nothing else, unless the frame is empty. -/
theorem Machine.regs_lowered_eq_iff (m : Machine) {sp r : Reg} {frame : Nat}
    (hframe : frame < 0x100000000) :
    (m.lowered sp frame).regs r = m.regs r ↔ frame = 0 ∨ r ≠ sp := by
  by_cases hr : r = sp
  · subst hr
    rw [lowered, regs_setReg_self]
    simp only [ne_eq, not_true_eq_false, or_false]
    constructor
    · intro heq
      have hzero : UInt32.ofNat frame = 0 := by grind
      simpa [Nat.mod_eq_of_lt hframe] using congrArg UInt32.toNat hzero
    · rintro rfl
      simp
  · simp [lowered, regs_setReg_of_ne _ _ hr, hr]

theorem Holder.forall_isIn_regs_lowered_iff (holder : Holder) (m : Machine) {sp : Reg} {frame : Nat}
    (hframe : frame < 0x100000000) :
    (∀ r, holder.IsIn r → (m.lowered sp frame).regs r = m.regs r) ↔
      frame = 0 ∨ ¬ holder.IsIn sp := by
  simp only [regs_lowered_eq_iff m hframe]
  constructor
  · intro h
    by_cases hin : holder.IsIn sp
    · exact .inl ((h sp hin).resolve_right (by simp))
    · exact .inr hin
  · rintro (hzero | hout) r hr
    · exact .inl hzero
    · exact .inr fun heq => hout (heq ▸ hr)

/-- An argument that is held in a register is read after the stack pointer has moved. -/
theorem Holder.IsIn.origin_eq {holder : Holder} {r : Reg} (h : holder.IsIn r)
    (roles : RegisterRoles) (frame : Nat) (m : Machine) :
    holder.origin roles frame m = m.lowered roles.sp frame := by
  cases holder with
  | memory base offset => exact h.elim
  | reg src => rfl
  | pair lo hi => rfl

/-- Memory that is addressed off the stack pointer keeps its meaning in a call, the stack pointer as a
register does not. Take any call whose arguments are held in the form that their types ask for, and
whose aggregates are outside the frame. The instructions in front of its jump run from every state of
the machine and move the stack pointer down by the frame. An argument is then delivered as it was at
the start exactly if the frame is empty or the argument is not held in the stack pointer, and one that
is held there is delivered with the stack pointer lowered by the frame.

The sizes of the arguments are not bounded here. Where they are counted in 32 bits, `roundedSizes` of
the arguments is to be below 2^32. -/
theorem delivered_iff_not_in_stackPointer (cc : Convention) (callee : String)
    (args : List HeldArgument) (layout : CallLayout) (is : List Inst) (frame : Nat) (m : Machine)
    (hcc : cc = .c ∨ cc = .fast)
    (hlayout : callLayout cc Target.dlx.roles (args.map (·.value)) = .ok layout)
    (hframe : frame = alignUp layout.stackSize 16)
    (hcall : callSequence ⟨Target.dlx.roles, Target.dlx.stackAlign⟩ cc callee args = .ok is)
    (hshape : ∀ a ∈ args, a.Shaped)
    (hapart : ∀ a ∈ args,
      a.Apart m (m.regs Target.dlx.roles.sp - UInt32.ofNat frame) frame) :
    ∃ before after m', is = before ++ ⟨.jal, [.expr (.sym callee)]⟩ :: after ∧
      (∀ i ∈ before, i.opcode ≠ .jal) ∧ m.run before = some m' ∧
      m'.regs Target.dlx.roles.sp = m.regs Target.dlx.roles.sp - UInt32.ofNat frame ∧
      List.Forall₂ (fun a loc =>
        (Delivered Target.dlx.roles.sp m m' a loc ↔
          frame = 0 ∨ ¬ a.holder.IsIn Target.dlx.roles.sp) ∧
        (a.holder.IsIn Target.dlx.roles.sp →
          Delivered Target.dlx.roles.sp (m.lowered Target.dlx.roles.sp frame) m' a loc))
        args layout.locations := by
  obtain ⟨before, after, m', his, hjal, hrun, hsp, hdelivered⟩ :=
    run_call m (laidOut_callLayout hcc hlayout hframe) hlayout hframe hcall hshape hapart
  have hbound : frame < 0x100000000 := by
    have := (standardCall_eq_ok hlayout hframe hcall).1
    omega
  refine ⟨before, after, m', his, hjal, hrun, hsp, hdelivered.imp fun a loc h => ⟨?_, ?_⟩⟩
  · rw [delivered_iff_of_origin h, a.holder.forall_isIn_regs_lowered_iff m hbound]
  · intro hin
    rwa [hin.origin_eq] at h

/-- The stack pointer, and an aggregate that is addressed off it and splits. -/
def pointerAndArea : List HeldArgument :=
  [⟨.value .i32, .reg (.ofBits 2)⟩, ⟨.aggregate 16 4, .memory (.ofBits 2) 8⟩]

theorem delivered_iff_not_in_stackPointer_pointerAndArea :
    let m : Machine := ⟨fun r => UInt32.ofNat (0x1000 * r.num.val), fun a => UInt8.ofNat a.toNat⟩
    ∃ before after m',
      callSequence ⟨Target.dlx.roles, Target.dlx.stackAlign⟩ .c "f" pointerAndArea =
        .ok (before ++ ⟨.jal, [.expr (.sym "f")]⟩ :: after) ∧
      m.run before = some m' ∧
      ¬ Delivered (.ofBits 2) m m' ⟨.value .i32, .reg (.ofBits 2)⟩ (.reg (.ofBits 10)) ∧
      Delivered (.ofBits 2) (m.lowered (.ofBits 2) 16) m' ⟨.value .i32, .reg (.ofBits 2)⟩
        (.reg (.ofBits 10)) ∧
      Delivered (.ofBits 2) m m' ⟨.aggregate 16 4, .memory (.ofBits 2) 8⟩
        (.aggregate [.ofBits 11, .ofBits 12, .ofBits 13] 0 4) := by
  intro m
  obtain ⟨is, hcall⟩ : ∃ is, callSequence ⟨Target.dlx.roles, Target.dlx.stackAlign⟩ .c "f"
      pointerAndArea = .ok is := ⟨_, rfl⟩
  obtain ⟨before, after, m', his, -, hrun, -, hdelivered⟩ :=
    delivered_iff_not_in_stackPointer .c "f" pointerAndArea
      ⟨[.reg (.ofBits 10), .aggregate [.ofBits 11, .ofBits 12, .ofBits 13] 0 4], 4⟩ is 16 m
      (.inl rfl) rfl rfl hcall
      (by simp [pointerAndArea, HeldArgument.Shaped, ValueType.isTwoWords, ValueType.bytes])
      (by
        simp only [pointerAndArea, List.forall_mem_cons, HeldArgument.Apart]
        exact ⟨trivial, by decide, by simp⟩)
  obtain ⟨⟨hpointer, hlowered⟩, harea⟩ := List.forall₂_cons.mp hdelivered
  obtain ⟨⟨harea, -⟩, -⟩ := List.forall₂_cons.mp harea
  refine ⟨before, after, m', his ▸ hcall, hrun, ?_, hlowered rfl, harea.mpr (.inr id)⟩
  exact fun h => (hpointer.mp h).elim (by decide) fun hout => hout rfl

/-- A call that passes the stack pointer passes another value than the stack pointer had, while in the
same call the address of the aggregate is corrected. -/
theorem stackPointer_argument_lowered :
    let m : Machine := ⟨fun r => UInt32.ofNat (0x1000 * r.num.val), fun _ => 0⟩
    ∃ before after m', (∀ a ∈ pointerAndArea, a.Shaped) ∧
      before = [.regImm .addi (.ofBits 2) (.ofBits 2) (-16),
        .regImm .lw (.ofBits 1) (.ofBits 2) 36, .regImm .sw (.ofBits 1) (.ofBits 2) 0,
        .regImm .addi (.ofBits 10) (.ofBits 2) 0, .regImm .lw (.ofBits 11) (.ofBits 2) 24,
        .regImm .lw (.ofBits 12) (.ofBits 2) 28, .regImm .lw (.ofBits 13) (.ofBits 2) 32] ∧
      callSequence ⟨Target.dlx.roles, Target.dlx.stackAlign⟩ .c "f" pointerAndArea =
        .ok (before ++ ⟨.jal, [.expr (.sym "f")]⟩ :: after) ∧
      m.run before = some m' ∧ m.regs (.ofBits 2) = 0x2000 ∧ m'.regs (.ofBits 10) = 0x1ff0 := by
  refine ⟨_, _, _, ?_, rfl, rfl, rfl, by decide, by decide⟩
  simp [pointerAndArea, HeldArgument.Shaped, ValueType.isTwoWords, ValueType.bytes]

end Dlx
