import Dlx.Proofs.Call.Moves
import Dlx.Proofs.Call.Stores
import Dlx.Target
import Mathlib.Data.List.Forall2

/-!
# A call delivers its arguments

The instructions in front of the jump move the stack pointer, store what goes on the stack and then
fill the argument registers. `Delivered` says of one argument that it is where the layout puts it
and is what the caller held before the first of these instructions.

Results:
* `delivered_origin_of_run`: what the stores and the moves for one argument achieve together.
* `LaidOut`: what the layouts of calls have in common.
* `run_call`: the instructions in front of the jump deliver every argument as it is read.
* `call_delivers_arguments`: every argument of every call is delivered, whatever the registers and
  the memory, and whatever registers its arguments share.
-/
namespace Dlx

open Machine

/-- Whether the argument itself, and not its address, is in a register. -/
def Holder.IsIn (r : Reg) : Holder → Prop
  | .reg x => x = r
  | .pair lo hi => lo = r ∨ hi = r
  | .memory _ _ => False

/-- The argument is held in the form that its type asks for. -/
def HeldArgument.Shaped (a : HeldArgument) : Prop :=
  match a.value, a.holder with
  | .value t, .reg _ => t.isTwoWords = false
  | .value t, .pair _ _ => t.isTwoWords = true
  | .aggregate _ _, .memory _ _ => True
  | _, _ => False

/-- The memory of an aggregate is outside the frame from `low` on. -/
def HeldArgument.Apart (m : Machine) (low : UInt32) (frame : Nat) (a : HeldArgument) : Prop :=
  match a.value, a.holder with
  | .aggregate size _, .memory base offset =>
    ∀ i < size, Outside low frame (m.regs base + UInt32.ofInt offset + UInt32.ofNat i)
  | _, _ => True

/-- In `m'` the location has what the argument was in `m`. Values are in their registers, or on the
stack with the low word first. The registers of an aggregate have its first words, as far as it
reaches, and the rest follows on the stack. -/
def Delivered (sp : Reg) (m m' : Machine) (a : HeldArgument) : Location → Prop
  | .reg dst =>
    match a.holder with
    | .reg src => m'.regs dst = m.regs src
    | _ => False
  | .pair lo hi =>
    match a.holder with
    | .pair srcLo srcHi => m'.regs lo = m.regs srcLo ∧ m'.regs hi = m.regs srcHi
    | _ => False
  | .stack offset _ =>
    match a.holder with
    | .reg src => m'.word (m'.regs sp + UInt32.ofNat offset) = m.regs src
    | .pair lo hi => m'.word (m'.regs sp + UInt32.ofNat offset) = m.regs lo ∧
      m'.word (m'.regs sp + UInt32.ofNat (offset + 4)) = m.regs hi
    | .memory _ _ => False
  | .aggregate regs stackOffset stackSize =>
    match a.value, a.holder with
    | .aggregate size _, .memory base offset =>
      let start := m.regs base + UInt32.ofInt offset
      (∀ i r, regs[i]? = some r → ∀ j < 4, 4 * i + j < size →
        (wordBytes (m'.regs r))[j]? = some (m.mem (start + UInt32.ofNat (4 * i + j)))) ∧
      m'.read (m'.regs sp + UInt32.ofNat stackOffset) stackSize =
        m.read (start + UInt32.ofNat (4 * regs.length)) stackSize ∧
      size ≤ 4 * regs.length + stackSize
    | _, _ => False

/-! ## The moves of a call -/

section Moves

variable {roles : RegisterRoles} {frame : Nat}

/-- The loads of an aggregate's first words, one after the other. -/
theorem aggregateLoads_eq_ok {base : Reg} {start : Int} {regs : List Reg} {moves : List Move}
    (h : aggregateLoads frame base start regs = .ok moves) :
    moves = regs.mapIdx fun i r => ⟨r, .load base (Int64.ofInt (start + 4 * i))⟩ := by
  induction regs generalizing start moves with
  | nil =>
    cases h
    rfl
  | cons r rest ih =>
    simp only [aggregateLoads, Except.bind_eq_ok_iff, imm16_eq_ok_iff] at h
    obtain ⟨_, ⟨-, rfl⟩, more, hmore, hout⟩ := h
    cases hout
    rw [List.mapIdx_cons, ih hmore]
    simp only [Int.natCast_zero, Int.mul_zero, Int.add_zero, List.cons.injEq, true_and]
    congr 1
    funext i r
    congr 3
    omega

theorem dst_argSequence {index : Nat} {holder : Holder} {loc : Location} {stores : List Inst}
    {moves : List Move} (h : argSequence roles frame index holder loc = .ok (stores, moves)) :
    moves.map Move.dst = loc.regs := by
  unfold argSequence at h
  split at h
  case h_5 =>
    simp only [Except.bind_eq_ok_iff] at h
    obtain ⟨loads, hloads, _, -, hout⟩ := h
    cases hout
    rw [aggregateLoads_eq_ok hloads]
    apply List.ext_getElem?
    intro i
    simp [Location.regs, Function.comp_def]
  all_goals
    cases h
    try rfl

/-- Each argument's moves are among those of the call. -/
theorem moves_argSequences {index : Nat} {pairs : List (Holder × Location)} {stores : List Inst}
    {moves : List Move} (h : argSequences roles frame index pairs = .ok (stores, moves)) :
    moves.map Move.dst = (pairs.map (·.2)).flatMap Location.regs ∧
      ∀ p ∈ pairs, ∃ i stores' moves',
        argSequence roles frame i p.1 p.2 = .ok (stores', moves') ∧ moves' ⊆ moves := by
  induction pairs generalizing index stores moves with
  | nil =>
    cases h
    simp
  | cons p rest ih =>
    simp only [argSequences, Except.bind_eq_ok_iff] at h
    obtain ⟨⟨stores₁, moves₁⟩, h₁, ⟨stores₂, moves₂⟩, h₂, hout⟩ := h
    cases hout
    obtain ⟨hdst, hmem⟩ := ih h₂
    refine ⟨by simp [dst_argSequence h₁, hdst], List.forall_mem_cons.mpr ⟨?_, ?_⟩⟩
    · exact ⟨index, stores₁, moves₁, h₁, List.subset_append_left _ _⟩
    · intro q hq
      obtain ⟨i, stores', moves', harg, hsub⟩ := hmem q hq
      exact ⟨i, stores', moves', harg, List.subset_append_of_subset_right _ hsub⟩

end Moves

/-! ## One argument -/

section Argument

variable {roles : RegisterRoles} {frame : Nat} {copies : Bool} {m₀ m₂ m₃ : Machine}
  {a : HeldArgument} {loc : Location}

/-- The bytes of an argument that belong on the stack are as many as its location has there. -/
theorem length_stackBytes (hshape : a.Shaped) (hsuits : loc.Suits a.value) :
    (a.holder.stackBytes m₀ loc).length = loc.stackSize := by
  obtain ⟨value, holder⟩ := a
  cases value <;> cases holder <;> cases loc <;>
    simp_all [HeldArgument.Shaped, Location.Suits, Holder.stackBytes, Location.stackSize,
      wordBytes, length_leBytes]

theorem slotReady_of_suits (hshape : a.Shaped) (hsuits : loc.Suits a.value)
    (hscratch : copies = true → a.holder.involves roles.scratch = false)
    (hapart : a.Apart m₀ (m₀.regs roles.sp - UInt32.ofNat frame) frame)
    (hcopies : loc.copiesToStack = true → copies = true)
    (hslot : loc.stackOffset + loc.stackSize ≤ frame) :
    SlotReady roles frame copies m₀ a.holder loc := by
  refine ⟨hscratch, ?_, length_stackBytes hshape hsuits, hcopies, hslot⟩
  obtain ⟨value, holder⟩ := a
  rintro base offset rfl i hi
  cases value <;> cases loc <;>
    simp only [HeldArgument.Shaped, Location.Suits, HeldArgument.Apart, Location.stackSize,
      Location.regs] at hshape hsuits hapart hi ⊢
  exact hapart _ (by omega)

/-- What the stores and the moves for one argument achieve together: it is delivered as it is
read. -/
theorem delivered_origin_of_run {index : Nat} {stores : List Inst} {moves : List Move}
    (harg : argSequence roles frame index a.holder loc = .ok (stores, moves))
    (hsuits : loc.Suits a.value)
    (hready : SlotReady roles frame copies m₀ a.holder loc)
    (hapart : a.Apart m₀ (m₀.regs roles.sp - UInt32.ofNat frame) frame)
    (hent : Entered roles frame copies m₀ m₂)
    (hmoved : ∀ mv ∈ moves, m₃.regs mv.dst = mv.value m₂)
    (hsp : m₃.regs roles.sp = m₀.regs roles.sp - UInt32.ofNat frame)
    (hslot : m₃.read (m₀.regs roles.sp - UInt32.ofNat frame + UInt32.ofNat loc.stackOffset)
      loc.stackSize = a.holder.stackBytes (a.holder.origin roles frame m₀) loc) :
    Delivered roles.sp (a.holder.origin roles frame m₀) m₃ a loc := by
  have hread : ∀ r, a.holder.involves r = true →
      m₂.regs r = (m₀.lowered roles.sp frame).regs r :=
    fun r hr => hent.regs_lowered (hready.ne_scratch hr)
  obtain ⟨value, holder⟩ := a
  dsimp only at harg hsuits hready hslot hread
  rw [← hsp] at hslot
  unfold argSequence at harg
  split at harg
  · next dst src =>
    cases harg
    exact (hmoved (.copy dst src) (by simp)).trans (hread src (by simp [Holder.involves]))
  · next lo hi srcLo srcHi =>
    cases harg
    exact ⟨(hmoved (.copy lo srcLo) (by simp)).trans (hread srcLo (by simp [Holder.involves])),
      (hmoved (.copy hi srcHi) (by simp)).trans (hread srcHi (by simp [Holder.involves]))⟩
  · next offset size src =>
    have hsize : size = 4 := by simpa [Holder.stackBytes, wordBytes, length_leBytes,
      Location.stackSize] using hready.length.symm
    subst hsize
    exact (congrArg bytesWord hslot).trans (bytesWord_wordBytes _)
  · next offset size lo hi =>
    have hsize : size = 4 + 4 := by simpa [Holder.stackBytes, wordBytes, length_leBytes,
      Location.stackSize] using hready.length.symm
    subst hsize
    rw [Location.stackSize, read_add, Location.stackOffset, UInt32.add_assoc,
      ← UInt32.ofNat_add] at hslot
    obtain ⟨hlo, hhi⟩ := List.append_inj hslot (by simp [wordBytes, length_leBytes])
    exact ⟨(congrArg bytesWord hlo).trans (bytesWord_wordBytes _),
      (congrArg bytesWord hhi).trans (bytesWord_wordBytes _)⟩
  · next regs stackOffset stackSize base offset =>
    simp only [Except.bind_eq_ok_iff] at harg
    obtain ⟨loads, hloads, _, -, hout⟩ := harg
    cases hout
    cases value with
    | value t => exact hsuits.elim
    | aggregate size align =>
      have hbase := hready.ne_scratch (r := base) (by simp [Holder.involves])
      simp only [Holder.origin] at hslot ⊢
      refine ⟨?_, hslot, ?_⟩
      · intro i r hr j hj hij
        have hmv : ⟨r, .load base (Int64.ofInt (heldOffset roles frame base offset + 4 * i))⟩ ∈
            moves := by
          rw [aggregateLoads_eq_ok hloads]
          exact List.mem_of_getElem? (i := i) (by simp [hr])
        have haddr : m₂.regs base +
            UInt32.ofInt (heldOffset roles frame base offset + 4 * (i : Int)) =
              m₀.regs base + UInt32.ofInt offset + UInt32.ofNat (4 * i) := by
          rw [UInt32.ofInt_add, ← UInt32.add_assoc, hent.held_address offset hbase,
            ← ofInt_natCast (4 * i)]
          rfl
        have hreg : m₃.regs r =
            m₂.word (m₀.regs base + UInt32.ofInt offset + UInt32.ofNat (4 * i)) := by
          rw [hmoved _ hmv, ← haddr, ← immWord_ofInt]
          rfl
        rw [hreg, word, wordBytes_bytesWord (length_read _ _ _), UInt32.ofNat_add,
          ← UInt32.add_assoc, ← hent.mem]
        · simp [Machine.read, hj]
        · rw [UInt32.add_assoc, ← UInt32.ofNat_add]
          exact hapart _ hij
      · simp only [Location.Suits] at hsuits
        omega
  all_goals cases harg

/-- An argument that is delivered as it is read is delivered as it was at the start just if moving
the stack pointer leaves the registers it is held in. -/
theorem delivered_iff_of_origin
    (h : Delivered roles.sp (a.holder.origin roles frame m₀) m₃ a loc) :
    Delivered roles.sp m₀ m₃ a loc ↔
      ∀ r, a.holder.IsIn r → (m₀.lowered roles.sp frame).regs r = m₀.regs r := by
  obtain ⟨value, holder⟩ := a
  cases holder with
  | memory base offset => exact iff_of_true h fun r hr => hr.elim
  | reg src => cases loc <;> simp_all [Delivered, Holder.origin, Holder.IsIn]
  | pair lo hi => cases loc <;> simp_all [Delivered, Holder.origin, Holder.IsIn, or_imp, forall_and]

end Argument

/-! ## The whole call -/

theorem involves_of_checkScratch {roles : RegisterRoles} {args : List HeldArgument}
    {locations : List Location} (h : checkScratch roles args locations = .ok ())
    (hcopies : locations.any Location.copiesToStack = true) :
    ∀ a ∈ args, a.holder.involves roles.scratch = false := by
  rw [checkScratch, if_pos hcopies] at h
  split at h
  · cases h
  · next hnone => simpa using List.findIdx?_eq_none_iff.mp hnone

theorem sequenceMoves_eq_ok_iff {roles : RegisterRoles} {moves : List Move} {is : List Inst} :
    sequenceMoves roles moves = .ok is ↔ Move.sequence roles.scratch moves = some is := by
  unfold sequenceMoves
  split
  · next hseq => simp [hseq]
  · next hseq => simp [hseq]

/-- The parts of a call: the adjustment of the stack pointer, the stores, the moves and the jump. -/
theorem callSequence_eq_ok {target : CallTarget} {cc : Convention} {callee : String}
    {args : List HeldArgument} {layout : CallLayout} {is : List Inst}
    (hlayout : callLayout cc target.roles (args.map (·.value)) = .ok layout)
    (h : callSequence target cc callee args = .ok is) :
    let frame := alignUp layout.stackSize target.stackAlign
    frame ≤ 0x7fff ∧ checkScratch target.roles args layout.locations = .ok () ∧
      ∃ stores moves sequence,
        argSequences target.roles frame 0 ((args.map (·.holder)).zip layout.locations) =
          .ok (stores, moves) ∧
        Move.sequence target.roles.scratch moves = some sequence ∧
        is = (adjustStack target.roles (-frame) ++ stores ++ sequence) ++
          ⟨.jal, [.expr (.sym callee)]⟩ :: adjustStack target.roles frame := by
  simp only [callSequence, hlayout] at h
  change (if target.stackAlign = 0 then _ else _) = _ at h
  split at h
  · cases h
  · simp only [Except.bind_eq_ok_iff, imm16_eq_ok_iff] at h
    obtain ⟨_, ⟨⟨-, hbound⟩, -⟩, _, hscratch, ⟨stores, moves⟩, hargs, sequence, hsequence, his⟩ := h
    cases his
    exact ⟨by omega, hscratch, stores, moves, sequence, hargs,
      sequenceMoves_eq_ok_iff.mp hsequence, by simp⟩

/-- What is known of the layout of a call with the standard roles, whose frame has `frame` bytes. -/
structure LaidOut (args : List HeldArgument) (layout : CallLayout) (frame : Nat) : Prop where
  suits : List.Forall₂ (fun a loc => loc.Suits a.value) args layout.locations
  slots : ∀ loc ∈ layout.locations, loc.stackOffset + loc.stackSize ≤ frame
  ordered : layout.locations.Pairwise Location.Before
  regs : (layout.locations.flatMap Location.regs).Sublist Target.dlx.roles.arguments

theorem laidOut_callLayout {cc : Convention} {args : List HeldArgument} {layout : CallLayout}
    {frame : Nat} (hcc : cc = .c ∨ cc = .fast)
    (hlayout : callLayout cc Target.dlx.roles (args.map (·.value)) = .ok layout)
    (hframe : frame = alignUp layout.stackSize 16) : LaidOut args layout frame := by
  obtain ⟨layout', s, hlayout', hsize, hplaced⟩ :=
    allPlaced_callLayout Target.dlx.roles (args.map (·.value)) hcc (by decide) (by decide)
  obtain rfl : layout' = layout := Except.ok.inj (hlayout'.symm.trans hlayout)
  refine ⟨List.forall₂_map_left_iff.mp hplaced.suits, fun loc hloc => ?_, hplaced.ordered,
    hplaced.regs.trans ((List.drop_sublist _ _).trans hplaced.within.sublist)⟩
  have hend := hplaced.ends loc hloc
  rw [hsize] at hend
  simp only [hframe, alignUp]
  omega

/-- The parts of a call with the standard roles. -/
theorem standardCall_eq_ok {cc : Convention} {callee : String} {args : List HeldArgument}
    {layout : CallLayout} {frame : Nat} {is : List Inst}
    (hlayout : callLayout cc Target.dlx.roles (args.map (·.value)) = .ok layout)
    (hframe : frame = alignUp layout.stackSize 16)
    (h : callSequence ⟨Target.dlx.roles, Target.dlx.stackAlign⟩ cc callee args = .ok is) :
    frame ≤ 0x7fff ∧ checkScratch Target.dlx.roles args layout.locations = .ok () ∧
      ∃ stores moves sequence,
        argSequences Target.dlx.roles frame 0 ((args.map (·.holder)).zip layout.locations) =
          .ok (stores, moves) ∧
        Move.sequence Target.dlx.roles.scratch moves = some sequence ∧
        is = (adjustStack Target.dlx.roles (-frame) ++ stores ++ sequence) ++
          ⟨.jal, [.expr (.sym callee)]⟩ :: adjustStack Target.dlx.roles frame := by
  subst hframe
  exact callSequence_eq_ok hlayout h

/-- The holders are paired with the locations as their arguments are. -/
theorem mem_zip_holders {args : List HeldArgument} {locs : List Location} {holder : Holder}
    {loc : Location} :
    (holder, loc) ∈ (args.map (·.holder)).zip locs ↔
      ∃ a, (a, loc) ∈ args.zip locs ∧ a.holder = holder := by
  simp only [List.zip_map_left, List.mem_map, Prod.exists, Prod.map, id, Prod.mk.injEq]
  constructor
  · rintro ⟨a, _, hmem, rfl, rfl⟩
    exact ⟨a, hmem, rfl⟩
  · rintro ⟨a, hmem, rfl⟩
    exact ⟨a, loc, hmem, rfl, rfl⟩

theorem LaidOut.map_snd_zip {args : List HeldArgument} {layout : CallLayout} {frame : Nat}
    (h : LaidOut args layout frame) :
    ((args.map (·.holder)).zip layout.locations).map (·.2) = layout.locations :=
  List.map_snd_zip (by simp [h.suits.length_eq])

/-- The moves of a call go to distinct argument registers. -/
theorem LaidOut.dst_moves {args : List HeldArgument} {layout : CallLayout} {frame : Nat}
    (h : LaidOut args layout frame) {index : Nat} {stores : List Inst} {moves : List Move}
    (hargs : argSequences Target.dlx.roles frame index ((args.map (·.holder)).zip layout.locations) =
      .ok (stores, moves)) :
    (moves.map Move.dst).Sublist Target.dlx.roles.arguments := by
  rw [(moves_argSequences hargs).1, h.map_snd_zip]
  exact h.regs

/-- The instructions in front of the jump run, move the stack pointer down by the frame, and leave
each argument, as it is read, where the layout puts it. -/
theorem run_call {cc : Convention} {callee : String} {args : List HeldArgument}
    {layout : CallLayout} {is : List Inst} {frame : Nat} (m : Machine)
    (hlaid : LaidOut args layout frame)
    (hlayout : callLayout cc Target.dlx.roles (args.map (·.value)) = .ok layout)
    (hframe : frame = alignUp layout.stackSize 16)
    (hcall : callSequence ⟨Target.dlx.roles, Target.dlx.stackAlign⟩ cc callee args = .ok is)
    (hshape : ∀ a ∈ args, a.Shaped)
    (hapart : ∀ a ∈ args,
      a.Apart m (m.regs Target.dlx.roles.sp - UInt32.ofNat frame) frame) :
    ∃ before after m', is = before ++ ⟨.jal, [.expr (.sym callee)]⟩ :: after ∧
      (∀ i ∈ before, i.opcode ≠ .jal) ∧ m.run before = some m' ∧
      m'.regs Target.dlx.roles.sp = m.regs Target.dlx.roles.sp - UInt32.ofNat frame ∧
      List.Forall₂ (fun a loc => Delivered Target.dlx.roles.sp
        (a.holder.origin Target.dlx.roles frame m) m' a loc) args layout.locations := by
  have hne : Target.dlx.roles.sp ≠ Target.dlx.roles.scratch := by decide
  obtain ⟨hbound, hscratch, stores, moves, sequence, hargs, hseq, rfl⟩ :=
    standardCall_eq_ok hlayout hframe hcall
  obtain ⟨hlength, hsuits⟩ := List.forall₂_iff_zip.mp hlaid.suits
  have hready : ∀ a loc, (a, loc) ∈ args.zip layout.locations →
      SlotReady Target.dlx.roles frame (layout.locations.any Location.copiesToStack) m
        a.holder loc := by
    intro a loc hmem
    obtain ⟨ha, hloc⟩ := List.of_mem_zip hmem
    exact slotReady_of_suits (hshape a ha) (hsuits hmem)
      (fun hcopies => involves_of_checkScratch hscratch hcopies a ha) (hapart a ha)
      (fun hcopies => List.any_eq_true.mpr ⟨loc, hloc, hcopies⟩) (hlaid.slots loc hloc)
  have hregs := hlaid.dst_moves hargs
  have hspMoves : Target.dlx.roles.sp ∉ moves.map Move.dst := fun hmem =>
    absurd (hregs.subset hmem) (by decide)
  have hscratchMoves : Target.dlx.roles.scratch ∉ moves.map Move.dst := fun hmem =>
    absurd (hregs.subset hmem) (by decide)
  -- Run the three parts one after the other.
  obtain ⟨m₁, hrun₁, -, hent₁⟩ := run_adjustStack Target.dlx.roles frame
    (layout.locations.any Location.copiesToStack) m
  obtain ⟨m₂, hrun₂, hent₂, -, hslots⟩ := run_argSlots hne (by omega) hargs hent₁
    (fun p hp => by
      obtain ⟨a, hmem, hholder⟩ := mem_zip_holders.mp hp
      exact hholder ▸ hready a p.2 hmem)
    (by rw [hlaid.map_snd_zip]; exact hlaid.ordered)
  obtain ⟨sequence', m₃, hseq', hrun₃, hatOnce⟩ :=
    Move.run_sequence m₂ (hregs.nodup (by decide)) hscratchMoves
  obtain rfl : sequence' = sequence := Option.some.inj (hseq'.symm.trans hseq)
  have hrun : m.run (adjustStack Target.dlx.roles (-frame) ++ stores ++ sequence') = some m₃ := by
    rw [List.append_assoc, run_append_of_run hrun₁, run_append_of_run hrun₂, hrun₃]
  have hsp₃ : m₃.regs Target.dlx.roles.sp = m.regs Target.dlx.roles.sp - UInt32.ofNat frame :=
    (hatOnce.kept _ hspMoves hne).trans hent₂.sp
  refine ⟨_, _, m₃, rfl, ne_jal_of_run hrun, hrun, hsp₃, ?_⟩
  refine List.forall₂_iff_zip.mpr ⟨hlength, fun {a loc} hmem => ?_⟩
  have hp := mem_zip_holders.mpr ⟨a, hmem, rfl⟩
  obtain ⟨i, stores', moves', harg, hsub⟩ := (moves_argSequences hargs).2 _ hp
  have hread := hslots _ hp
  rw [← read_congr (m := m₃) fun i _ => by rw [hatOnce.mem]] at hread
  exact delivered_origin_of_run harg (hsuits hmem) (hready a loc hmem)
    (hapart a (List.of_mem_zip hmem).1) hent₂ (fun mv hmv => hatOnce.moved mv (hsub hmv)) hsp₃ hread

/-- Every argument of a call is delivered. Take any call whose arguments are held in the form that
their types ask for, of which none is in the stack pointer itself, and whose aggregates are outside
the frame. The instructions in front of its jump run from every state of the machine, move the stack
pointer down by the frame, and leave each argument, as it was at the start, where the layout of the
call puts it. -/
theorem call_delivers_arguments (cc : Convention) (callee : String) (args : List HeldArgument)
    (layout : CallLayout) (is : List Inst) (frame : Nat) (m : Machine)
    (hcc : cc = .c ∨ cc = .fast)
    (hlayout : callLayout cc Target.dlx.roles (args.map (·.value)) = .ok layout)
    (hframe : frame = alignUp layout.stackSize 16)
    (hcall : callSequence ⟨Target.dlx.roles, Target.dlx.stackAlign⟩ cc callee args = .ok is)
    (hshape : ∀ a ∈ args, a.Shaped)
    (hsp : ∀ a ∈ args, ¬ a.holder.IsIn Target.dlx.roles.sp)
    (hapart : ∀ a ∈ args,
      a.Apart m (m.regs Target.dlx.roles.sp - UInt32.ofNat frame) frame) :
    ∃ before after m', is = before ++ ⟨.jal, [.expr (.sym callee)]⟩ :: after ∧
      (∀ i ∈ before, i.opcode ≠ .jal) ∧ m.run before = some m' ∧
      m'.regs Target.dlx.roles.sp = m.regs Target.dlx.roles.sp - UInt32.ofNat frame ∧
      List.Forall₂ (Delivered Target.dlx.roles.sp m m') args layout.locations := by
  obtain ⟨before, after, m', his, hjal, hrun, hlow, hdelivered⟩ :=
    run_call m (laidOut_callLayout hcc hlayout hframe) hlayout hframe hcall hshape hapart
  obtain ⟨hlength, hdelivered⟩ := List.forall₂_iff_zip.mp hdelivered
  refine ⟨before, after, m', his, hjal, hrun, hlow,
    List.forall₂_iff_zip.mpr ⟨hlength, fun {a loc} hmem => ?_⟩⟩
  -- Only the stack pointer has another value when the arguments are read.
  refine (delivered_iff_of_origin (hdelivered hmem)).mpr fun r hr => regs_setReg_of_ne _ _ ?_
  rintro rfl
  exact hsp a (List.of_mem_zip hmem).1 hr

/-- A call with a swap of two argument registers, an aggregate whose base register is one of those
that it fills and whose last bytes make no whole word, and a two-word value behind it. -/
def swapAndSplit : List HeldArgument :=
  [⟨.value .i32, .reg (.ofBits 11)⟩, ⟨.value .f32, .reg (.ofBits 10)⟩,
    ⟨.aggregate 22 4, .memory (.ofBits 12) 8⟩, ⟨.value .i64, .pair (.ofBits 13) (.ofBits 14)⟩]

theorem call_delivers_arguments_swapAndSplit :
    let m : Machine := ⟨fun r => UInt32.ofNat (0x1000 * r.num.val), fun a => UInt8.ofNat a.toNat⟩
    ∃ before after m',
      callSequence ⟨Target.dlx.roles, Target.dlx.stackAlign⟩ .c "f" swapAndSplit =
        .ok (before ++ ⟨.jal, [.expr (.sym "f")]⟩ :: after) ∧
      m.run before = some m' ∧ m'.regs Target.dlx.roles.sp = 0x1fe0 ∧
      List.Forall₂ (Delivered Target.dlx.roles.sp m m') swapAndSplit
        [.reg (.ofBits 10), .reg (.ofBits 11), .aggregate [.ofBits 12, .ofBits 13] 0 14,
          .stack 16 8] := by
  intro m
  obtain ⟨is, hcall⟩ : ∃ is, callSequence ⟨Target.dlx.roles, Target.dlx.stackAlign⟩ .c "f"
      swapAndSplit = .ok is := ⟨_, rfl⟩
  obtain ⟨before, after, m', his, -, hrun, hsp, hdelivered⟩ :=
    call_delivers_arguments .c "f" swapAndSplit
      ⟨[.reg (.ofBits 10), .reg (.ofBits 11), .aggregate [.ofBits 12, .ofBits 13] 0 14,
        .stack 16 8], 24⟩ is 32 m (.inl rfl) rfl rfl hcall
      (by simp [swapAndSplit, HeldArgument.Shaped, ValueType.isTwoWords, ValueType.bytes])
      (by simp [swapAndSplit, Holder.IsIn]; decide)
      (by
        simp only [swapAndSplit, List.forall_mem_cons, HeldArgument.Apart]
        refine ⟨trivial, trivial, ?_, trivial, by simp⟩
        decide)
  exact ⟨before, after, m', his ▸ hcall, hrun, hsp.trans (by decide), hdelivered⟩

end Dlx
