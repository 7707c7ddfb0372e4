import Dlx.Proofs.Call.Delivery
import Dlx.Proofs.Call.Results

/-!
# Which calls are accepted

A call is refused if its frame or an offset does not fit an immediate, if something is copied through
the scratch register while an argument is held there, and if an argument is not held as its location
asks. The last is asked of the location, not of the type. A location in registers has one register
for each word and an aggregate has one of its own kind, so there the two come to the same. A slot of
the stack does not show how many registers fill it: a value that goes there may be held in one
register or in two, whatever its type, and as many words are stored.

Results:
* `argSequence_isOk_iff`, `argSequences_isOk_iff`: which arguments are accepted at their locations.
* `mismatch_accepted_on_stack_only`: which calls are accepted, and what they store.
-/
namespace Dlx

/-! ## One argument -/

/-- The distances from its start that an aggregate is loaded from: its words, of which the first
`words` go to registers, and the bytes left over of the `size` that go on the stack. -/
def loadedAt (words size : Nat) : List Nat :=
  (List.range (words + size / 4)).map (4 * ·) ++
    (List.range (size % 4)).map (4 * (words + size / 4) + ·)

/-- An aggregate is loaded from offsets that fit an immediate. -/
def HeldArgument.InReach (roles : RegisterRoles) (frame : Nat) (a : HeldArgument)
    (loc : Location) : Prop :=
  match a.holder, loc with
  | .memory base offset, .aggregate regs _ size => ∀ d ∈ loadedAt regs.length size,
    -0x8000 ≤ heldOffset roles frame base offset + d ∧
      heldOffset roles frame base offset + d ≤ 0x7fff
  | _, _ => True

/-- A value goes from registers on the stack. -/
def HeldArgument.Spilled (a : HeldArgument) : Location → Prop
  | .stack _ _ => a.holder.regs ≠ []
  | _ => False

section Argument

variable {roles : RegisterRoles} {frame : Nat}

theorem imm16_isOk_iff {v : Int} :
    (∃ o, imm16 frame v = .ok o) ↔ -0x8000 ≤ v ∧ v ≤ 0x7fff := by
  simp [imm16_eq_ok_iff]

theorem aggregateLoads_isOk_iff {base : Reg} {start : Int} {regs : List Reg} :
    (∃ moves, aggregateLoads frame base start regs = .ok moves) ↔
      ∀ k < regs.length, -0x8000 ≤ start + 4 * k ∧ start + 4 * k ≤ 0x7fff := by
  induction regs generalizing start with
  | nil => simp [aggregateLoads]
  | cons r rest ih =>
    rw [aggregateLoads, Except.both_isOk_iff, imm16_isOk_iff, ih, List.length_cons,
      Nat.forall_lt_succ_left]
    refine and_congr (by simp) (forall₂_congr fun k _ => ?_)
    rw [show start + 4 + 4 * (k : Int) = start + 4 * (k + 1 : Nat) by omega]

theorem copyPieces_isOk_iff {load store : Opcode} {size count dst : Nat} {base : Reg} {src : Int} :
    (∃ is, copyPieces roles frame load store size base count src dst = .ok is) ↔
      ∀ k < count, -0x8000 ≤ src + size * k ∧ src + size * k ≤ 0x7fff := by
  induction count generalizing src dst with
  | zero => simp [copyPieces]
  | succ count ih =>
    have hpiece : (∃ is, copyPiece roles frame load store base src dst = .ok is) ↔
        -0x8000 ≤ src ∧ src ≤ 0x7fff := by
      simp [copyPiece, Except.bind_eq_ok_iff, imm16_eq_ok_iff, pure, Except.pure]
    rw [copyPieces, Except.both_isOk_iff, hpiece, ih, Nat.forall_lt_succ_left]
    refine and_congr (by simp) (forall₂_congr fun k _ => ?_)
    rw [show src + size + size * (k : Int) = src + size * (k + 1 : Nat) by grind]

theorem copyToStack_isOk_iff {base : Reg} {src : Int} {dst size : Nat} :
    (∃ is, copyToStack roles frame base src dst size = .ok is) ↔
      ∀ d ∈ loadedAt 0 size, -0x8000 ≤ src + d ∧ src + d ≤ 0x7fff := by
  simp only [loadedAt, List.forall_mem_append, List.forall_mem_map, List.mem_range, Nat.zero_add]
  rw [copyToStack, Except.both_isOk_iff, copyPieces_isOk_iff, copyPieces_isOk_iff]
  refine and_congr (forall₂_congr fun k _ => by rfl) (forall₂_congr fun k _ => ?_)
  rw [show src + 4 * (size / 4 : Nat) + (1 : Nat) * (k : Int) =
    src + (4 * (size / 4) + k : Nat) by omega]

/-- The words for registers are followed by what goes on the stack. -/
theorem forall_mem_loadedAt {words size : Nat} {p : Nat → Prop} :
    (∀ d ∈ loadedAt words size, p d) ↔
      (∀ k < words, p (4 * k)) ∧ ∀ d ∈ loadedAt 0 size, p (4 * words + d) := by
  simp only [loadedAt, List.forall_mem_append, List.forall_mem_map, List.mem_range, Nat.zero_add]
  constructor
  · rintro ⟨hw, hb⟩
    refine ⟨fun k hk => hw k (by omega), fun k hk => ?_, fun k hk => ?_⟩
    · rw [← Nat.mul_add]
      exact hw _ (by omega)
    · rw [← Nat.add_assoc, ← Nat.mul_add]
      exact hb k hk
  · rintro ⟨hr, hw, hb⟩
    refine ⟨fun k hk => ?_, fun k hk => ?_⟩
    · by_cases hlt : k < words
      · exact hr k hlt
      · have := hw (k - words) (by omega)
        rwa [← Nat.mul_add, Nat.add_sub_cancel' (by omega)] at this
    · rw [Nat.mul_add, Nat.add_assoc]
      exact hb k hk

/-- An argument is accepted where a layout may put it exactly if it is held in the form that its type
asks for, or goes from registers on the stack, and is in reach. -/
theorem argSequence_isOk_iff {index : Nat} {a : HeldArgument} {loc : Location}
    (hsuits : loc.Suits a.value) :
    (∃ r, argSequence roles frame index a.holder loc = .ok r) ↔
      (a.Shaped ∨ a.Spilled loc) ∧ a.InReach roles frame loc := by
  obtain ⟨value, holder⟩ := a
  cases loc with
  | aggregate regs stackOffset stackSize =>
    cases value with
    | value t => exact hsuits.elim
    | aggregate size align =>
      cases holder with
      | memory base offset =>
        simp only [HeldArgument.InReach, HeldArgument.Shaped, true_or, true_and]
        rw [forall_mem_loadedAt, argSequence, Except.both_isOk_iff, aggregateLoads_isOk_iff,
          copyToStack_isOk_iff]
        refine and_congr (forall₂_congr fun k _ => by rfl) (forall₂_congr fun d _ => ?_)
        rw [show heldOffset roles frame base offset + 4 * regs.length + (d : Int) =
          heldOffset roles frame base offset + (4 * regs.length + d : Nat) by omega]
      | reg r => simp [argSequence, HeldArgument.Shaped, HeldArgument.Spilled]
      | pair lo hi => simp [argSequence, HeldArgument.Shaped, HeldArgument.Spilled]
  | reg r =>
    cases value <;> cases holder <;>
      simp_all [argSequence, Location.Suits, HeldArgument.Shaped, HeldArgument.Spilled,
        HeldArgument.InReach]
  | pair lo hi =>
    cases value <;> cases holder <;>
      simp_all [argSequence, Location.Suits, HeldArgument.Shaped, HeldArgument.Spilled,
        HeldArgument.InReach]
  | stack offset size =>
    cases value <;> cases holder <;>
      simp_all [argSequence, Location.Suits, HeldArgument.Shaped, HeldArgument.Spilled,
        HeldArgument.InReach, Holder.regs]

theorem argSequences_isOk_iff (index : Nat) {args : List HeldArgument} {locs : List Location}
    (hsuits : List.Forall₂ (fun a loc => loc.Suits a.value) args locs) :
    (∃ r, argSequences roles frame index ((args.map (·.holder)).zip locs) = .ok r) ↔
      List.Forall₂ (fun a loc => (a.Shaped ∨ a.Spilled loc) ∧ a.InReach roles frame loc)
        args locs := by
  induction hsuits generalizing index with
  | nil => simp [argSequences]
  | cons hfirst _ ih =>
    rw [List.map_cons, List.zip_cons_cons, argSequences, Except.both_isOk_iff,
      argSequence_isOk_iff hfirst, ih, List.forall₂_cons]

/-- The stores for an argument are a stretch of those of the call. -/
theorem stores_argSequences {index : Nat} {pairs : List (Holder × Location)} {stores : List Inst}
    {moves : List Move} (h : argSequences roles frame index pairs = .ok (stores, moves)) :
    ∀ p ∈ pairs, ∃ i stores' moves', argSequence roles frame i p.1 p.2 = .ok (stores', moves') ∧
      stores' <:+: stores := by
  induction pairs generalizing index stores moves with
  | nil => simp
  | cons p rest ih =>
    simp only [argSequences, Except.bind_eq_ok_iff] at h
    obtain ⟨⟨stores₁, moves₁⟩, h₁, ⟨stores₂, moves₂⟩, h₂, hout⟩ := h
    cases hout
    refine List.forall_mem_cons.mpr ⟨⟨index, stores₁, moves₁, h₁, ?_⟩, fun q hq => ?_⟩
    · exact (List.prefix_append stores₁ stores₂).isInfix
    · obtain ⟨i, stores', moves', harg, hstores⟩ := ih h₂ q hq
      exact ⟨i, stores', moves', harg, hstores.trans (List.suffix_append stores₁ stores₂).isInfix⟩

/-- A value that goes from registers on the stack is stored word by word, as many as there are
registers. -/
theorem stores_of_stack {index offset size : Nat} {holder : Holder} {stores : List Inst}
    {moves : List Move}
    (h : argSequence roles frame index holder (.stack offset size) = .ok (stores, moves)) :
    stores = holder.regs.mapIdx fun k r =>
      .regImm .sw r roles.sp (Int64.ofNat (offset + 4 * k)) := by
  cases holder <;> cases h <;> rfl

end Argument

/-! ## The whole call -/

theorem checkScratch_eq_ok_iff {roles : RegisterRoles} {args : List HeldArgument}
    {locations : List Location} :
    checkScratch roles args locations = .ok () ↔
      (locations.any Location.copiesToStack = true →
        ∀ a ∈ args, a.holder.involves roles.scratch = false) := by
  refine ⟨involves_of_checkScratch, fun h => ?_⟩
  unfold checkScratch
  split
  · next hcopies =>
    have hnone : args.findIdx? (·.holder.involves roles.scratch) = none :=
      List.findIdx?_eq_none_iff.mpr (h hcopies)
    rw [hnone]
  · rfl

/-- The moves of a call always have an order: they go to distinct argument registers, of which none
is the scratch register. -/
theorem LaidOut.exists_sequence {args : List HeldArgument} {layout : CallLayout} {frame : Nat}
    (h : LaidOut args layout frame) {index : Nat} {stores : List Inst} {moves : List Move}
    (hargs : argSequences Target.dlx.roles frame index ((args.map (·.holder)).zip layout.locations) =
      .ok (stores, moves)) :
    ∃ sequence, Move.sequence Target.dlx.roles.scratch moves = some sequence := by
  have hregs := h.dst_moves hargs
  have hscratch : Target.dlx.roles.scratch ∉ moves.map Move.dst := fun hmem =>
    absurd (hregs.subset hmem) (by decide)
  obtain ⟨sequence, hseq, -⟩ := Move.exists_sequence (hregs.nodup (by decide)) hscratch
  exact ⟨sequence, hseq⟩

/-- A call whose parts can be made is accepted. -/
theorem callSequence_isOk (target : CallTarget) {cc : Convention} (callee : String)
    {args : List HeldArgument} {layout : CallLayout} {stores sequence : List Inst} {moves : List Move}
    (hlayout : callLayout cc target.roles (args.map (·.value)) = .ok layout)
    (halign : target.stackAlign ≠ 0)
    (hbound : alignUp layout.stackSize target.stackAlign ≤ 0x7fff)
    (hscratch : checkScratch target.roles args layout.locations = .ok ())
    (hargs : argSequences target.roles (alignUp layout.stackSize target.stackAlign) 0
      ((args.map (·.holder)).zip layout.locations) = .ok (stores, moves))
    (hseq : Move.sequence target.roles.scratch moves = some sequence) :
    ∃ is, callSequence target cc callee args = .ok is := by
  have himm : imm16 (alignUp layout.stackSize target.stackAlign)
      (alignUp layout.stackSize target.stackAlign) = .ok (Int64.ofInt _) :=
    imm16_eq_ok_iff.mpr ⟨by omega, rfl⟩
  simp only [callSequence, hlayout]
  change ∃ is, (if target.stackAlign = 0 then _ else _) = Except.ok is
  rw [if_neg halign, himm, hscratch, hargs]
  change ∃ is, (sequenceMoves target.roles moves >>= _) = Except.ok is
  rw [sequenceMoves_eq_ok_iff.mpr hseq]
  exact ⟨_, rfl⟩

/-- A call is accepted exactly if its frame fits an immediate, if no argument is held in the scratch
register while something is copied through it, and if every argument is in reach and either held in
the form that its type asks for or a value that goes from registers on the stack. So an argument in
the wrong form is refused unless it goes from registers on the stack. There it is stored as it is
held: one word for each register, in a slot that has the size of its type.

The sizes of the arguments are not bounded here. Where they are counted in 32 bits, `roundedSizes` of
the arguments is to be below 2^32. -/
theorem mismatch_accepted_on_stack_only (cc : Convention) (callee : String)
    (args : List HeldArgument) (layout : CallLayout) (frame : Nat) (hcc : cc = .c ∨ cc = .fast)
    (hlayout : callLayout cc Target.dlx.roles (args.map (·.value)) = .ok layout)
    (hframe : frame = alignUp layout.stackSize 16) :
    ((∃ is, callSequence ⟨Target.dlx.roles, Target.dlx.stackAlign⟩ cc callee args = .ok is) ↔
      frame ≤ 0x7fff ∧
      (layout.locations.any Location.copiesToStack = true →
        ∀ a ∈ args, a.holder.involves Target.dlx.roles.scratch = false) ∧
      List.Forall₂ (fun a loc => (a.Shaped ∨ a.Spilled loc) ∧
        a.InReach Target.dlx.roles frame loc) args layout.locations) ∧
    ∀ is, callSequence ⟨Target.dlx.roles, Target.dlx.stackAlign⟩ cc callee args = .ok is →
      ∀ a offset size, (a, .stack offset size) ∈ args.zip layout.locations →
        ∃ t, a.value = .value t ∧ size = 4 * t.words ∧
          (a.holder.regs.mapIdx fun k r =>
            .regImm .sw r Target.dlx.roles.sp (Int64.ofNat (offset + 4 * k))) <:+: is := by
  have hlaid := laidOut_callLayout hcc hlayout hframe
  refine ⟨⟨?_, ?_⟩, ?_⟩
  · rintro ⟨is, hcall⟩
    obtain ⟨hbound, hscratch, stores, moves, -, hargs, -⟩ := standardCall_eq_ok hlayout hframe hcall
    exact ⟨hbound, checkScratch_eq_ok_iff.mp hscratch,
      (argSequences_isOk_iff 0 hlaid.suits).mp ⟨_, hargs⟩⟩
  · rintro ⟨hbound, hscratch, haccepted⟩
    obtain ⟨⟨stores, moves⟩, hargs⟩ := (argSequences_isOk_iff 0 hlaid.suits).mpr haccepted
    obtain ⟨sequence, hseq⟩ := hlaid.exists_sequence hargs
    rw [hframe] at hbound hargs
    exact callSequence_isOk ⟨Target.dlx.roles, Target.dlx.stackAlign⟩ callee hlayout
      (by decide) hbound (checkScratch_eq_ok_iff.mpr hscratch) hargs hseq
  · intro is hcall a offset size hmem
    obtain ⟨-, -, stores, moves, sequence, hargs, -, rfl⟩ :=
      standardCall_eq_ok hlayout hframe hcall
    have hsuits := (List.forall₂_iff_zip.mp hlaid.suits).2 hmem
    obtain ⟨t, ht⟩ : ∃ t, a.value = .value t := by
      cases hvalue : a.value with
      | value t => exact ⟨t, rfl⟩
      | aggregate =>
        rw [hvalue] at hsuits
        exact hsuits.elim
    rw [ht] at hsuits
    obtain ⟨i, stores', moves', harg, hstretch⟩ :=
      stores_argSequences hargs _ (mem_zip_holders.mpr ⟨a, hmem, rfl⟩)
    refine ⟨t, ht, ?_, ?_⟩
    · simp only [Location.Suits] at hsuits
      rw [hsuits, ValueType.words]
      split <;> rfl
    · rw [← stores_of_stack harg]
      exact hstretch.trans ⟨_, _, (List.append_assoc _ _ _).symm⟩

/-- A word in each argument register. -/
def fullRegisters : List HeldArgument :=
  Target.dlx.roles.arguments.map fun r => ⟨.value .i32, .reg r⟩

/-- A value of two words that goes on the stack and is held in a single register. -/
def halfValue : List HeldArgument := fullRegisters ++ [⟨.value .i64, .reg (.ofBits 5)⟩]

theorem mismatch_accepted_on_stack_only_halfValue :
    ∃ is, callSequence ⟨Target.dlx.roles, Target.dlx.stackAlign⟩ .c "f" halfValue = .ok is ∧
      [.regImm .sw (.ofBits 5) (.ofBits 2) 0] <:+: is := by
  obtain ⟨haccepted, hstores⟩ := mismatch_accepted_on_stack_only .c "f" halfValue
    ⟨Target.dlx.roles.arguments.map .reg ++ [.stack 0 8], 8⟩ 16 (.inl rfl) rfl rfl
  obtain ⟨is, hcall⟩ := haccepted.mpr ⟨by decide, by decide, by
    simp [halfValue, fullRegisters, Target.dlx, RegisterRoles.standard, HeldArgument.Shaped,
      HeldArgument.Spilled, HeldArgument.InReach, Holder.regs, ValueType.isTwoWords,
      ValueType.bytes]⟩
  obtain ⟨t, -, -, hstretch⟩ := hstores is hcall ⟨.value .i64, .reg (.ofBits 5)⟩ 0 8 (by decide)
  exact ⟨is, hcall, hstretch⟩

/-- Four words fill the frame, and the last of them is held in a pair of registers. -/
def strayWord : List HeldArgument :=
  fullRegisters ++ [⟨.value .i32, .reg (.ofBits 5)⟩, ⟨.value .i32, .reg (.ofBits 6)⟩,
    ⟨.value .f32, .reg (.ofBits 7)⟩, ⟨.value .i32, .pair (.ofBits 8) (.ofBits 9)⟩]

/-- Arguments that are held in the wrong form can be accepted. Of a two-word value only one word is
stored, and the second register of a word is stored behind the frame, over what the caller has
there. -/
theorem half_value_and_stray_word_accepted :
    (¬ (∀ a ∈ halfValue, a.Shaped) ∧
      callSequence ⟨Target.dlx.roles, Target.dlx.stackAlign⟩ .c "f" halfValue =
        .ok [.regImm .addi (.ofBits 2) (.ofBits 2) (-16), .regImm .sw (.ofBits 5) (.ofBits 2) 0,
          ⟨.jal, [.expr (.sym "f")]⟩, .regImm .addi (.ofBits 2) (.ofBits 2) 16]) ∧
    ¬ (∀ a ∈ strayWord, a.Shaped) ∧
      let m : Machine := ⟨fun r => UInt32.ofNat (0x1000 * r.num.val), fun _ => 0⟩
      ∃ before after m',
        callSequence ⟨Target.dlx.roles, Target.dlx.stackAlign⟩ .c "f" strayWord =
          .ok (before ++ ⟨.jal, [.expr (.sym "f")]⟩ :: after) ∧
        m.run before = some m' ∧ m.word (m.regs (.ofBits 2)) = 0 ∧
        m'.word (m.regs (.ofBits 2)) = 0x9000 := by
  refine ⟨⟨?_, rfl⟩, ?_, ?_⟩
  · intro h
    have hone : ValueType.i64.isTwoWords = false :=
      h ⟨.value .i64, .reg (.ofBits 5)⟩ (by decide)
    cases hone
  · intro h
    have htwo : ValueType.i32.isTwoWords = true :=
      h ⟨.value .i32, .pair (.ofBits 8) (.ofBits 9)⟩ (by decide)
    cases htwo
  · exact ⟨[.regImm .addi (.ofBits 2) (.ofBits 2) (-16), .regImm .sw (.ofBits 5) (.ofBits 2) 0,
      .regImm .sw (.ofBits 6) (.ofBits 2) 4, .regImm .sw (.ofBits 7) (.ofBits 2) 8,
      .regImm .sw (.ofBits 8) (.ofBits 2) 12, .regImm .sw (.ofBits 9) (.ofBits 2) 16], _, _, rfl,
      rfl, by decide, by decide⟩

end Dlx
