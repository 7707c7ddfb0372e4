import Dlx.Proofs.Call.Moves

/-!
# The rounds of a sequence of moves

Looked at one instruction at a time, moves are ordered by a loop without a bound. A round emits the
first move whose destination no other reads. If there is none, it saves the first destination in the
scratch register, whose readers read the copy from then on, and drops no move. `order` does the same
in steps that each emit a move: saving a destination and emitting the move that this frees is one of
them.

The loop need not end. If the first destination of blocked moves is the scratch register, it is
saved in itself, and the next round finds the same moves again. These are the moves without an order
(`sequence_eq_some_iff`).

Results:
* `order_eq_some_iff`, `sequence_eq_some_iff`: the loop ends exactly on moves that have an order, and
  the order is what it emits.
* `loop_moves_at_once`: for distinct destinations other than the scratch register the loop ends, and
  what it emits makes all moves at once.
-/
namespace Dlx.Move

/-- What one round emits, and the moves that are left. -/
def round (scratch : Reg) (mv : Move) (rest : List Move) : Inst × List Move :=
  match pickReady [] (mv :: rest) with
  | some (ready, others) => (ready.inst, others)
  | none => (.copy scratch mv.dst, (mv :: rest).map (replaceRead mv.dst scratch))

/-- The loop ends, and its rounds emit these instructions. -/
inductive Ends (scratch : Reg) : List Move → List Inst → Prop where
  | done : Ends scratch [] []
  | round {mv : Move} {rest : List Move} {is : List Inst} :
      Ends scratch (round scratch mv rest).2 is →
        Ends scratch (mv :: rest) ((round scratch mv rest).1 :: is)

section
variable {scratch : Reg} {mv : Move} {rest : List Move}

theorem ends_nil_iff {is : List Inst} : Ends scratch [] is ↔ is = [] := by
  constructor
  · rintro ⟨⟩
    rfl
  · rintro rfl
    exact .done

theorem ends_cons_iff {is : List Inst} {i : Inst} {others : List Move}
    (h : round scratch mv rest = (i, others)) :
    Ends scratch (mv :: rest) is ↔ ∃ is', Ends scratch others is' ∧ i :: is' = is := by
  constructor
  · rintro (_ | hrest)
    rw [h] at hrest ⊢
    exact ⟨_, hrest, rfl⟩
  · rintro ⟨is', hrest, rfl⟩
    have hround : Ends scratch (round scratch mv rest).2 is' →
        Ends scratch (mv :: rest) ((round scratch mv rest).1 :: is') := .round
    rw [h] at hround
    exact hround hrest

theorem round_of_ready {ready : Move} {others : List Move}
    (h : pickReady [] (mv :: rest) = some (ready, others)) :
    round scratch mv rest = (ready.inst, others) := by
  rw [round, h]

theorem round_of_blocked (h : pickReady [] (mv :: rest) = none) :
    round scratch mv rest =
      (.copy scratch mv.dst, (mv :: rest).map (replaceRead mv.dst scratch)) := by
  rw [round, h]

/-! ## Saving a destination -/

theorem readReg_replaceRead_ne {old new : Reg} (hne : old ≠ new) (x : Move) :
    (x.replaceRead old new).readReg ≠ old := by
  by_cases hx : x.readReg = old
  · obtain ⟨dst, r | ⟨base, offset⟩⟩ := x <;> simp_all [replaceRead, readReg, Ne.symm]
  · rwa [replaceRead_of_ne hx]

theorem replaceRead_self (r : Reg) (x : Move) : x.replaceRead r r = x := by
  by_cases hx : x.readReg = r
  · obtain ⟨dst, s | ⟨base, offset⟩⟩ := x <;> simp_all [replaceRead, readReg]
  · exact replaceRead_of_ne hx

/-- Once its destination is saved, the first move is ready. -/
theorem pickReady_saved (hne : mv.dst ≠ scratch) :
    pickReady [] ((mv :: rest).map (replaceRead mv.dst scratch)) =
      some (mv.replaceRead mv.dst scratch, rest.map (replaceRead mv.dst scratch)) := by
  have hready : ∀ x ∈ rest.map (replaceRead mv.dst scratch), x.readReg ≠ mv.dst :=
    List.forall_mem_map.mpr fun x _ => readReg_replaceRead_ne hne x
  rw [List.map_cons, pickReady, if_pos (by simpa using hready)]
  rfl

/-- A round that saves is followed by one that emits. -/
theorem ends_blocked_iff (hblocked : pickReady [] (mv :: rest) = none) (hne : mv.dst ≠ scratch)
    {is : List Inst} :
    Ends scratch (mv :: rest) is ↔ ∃ is', Ends scratch (rest.map (replaceRead mv.dst scratch)) is' ∧
      .copy scratch mv.dst :: (mv.replaceRead mv.dst scratch).inst :: is' = is := by
  have hnext : round scratch (mv.replaceRead mv.dst scratch)
      (rest.map (replaceRead mv.dst scratch)) =
        ((mv.replaceRead mv.dst scratch).inst, rest.map (replaceRead mv.dst scratch)) :=
    round_of_ready (pickReady_saved hne)
  rw [ends_cons_iff (round_of_blocked hblocked)]
  constructor
  · rintro ⟨_, hsaved, rfl⟩
    obtain ⟨is', hends, rfl⟩ := (ends_cons_iff hnext).mp hsaved
    exact ⟨is', hends, rfl⟩
  · rintro ⟨is', hends, rfl⟩
    exact ⟨_, (ends_cons_iff hnext).mpr ⟨is', hends, rfl⟩, rfl⟩

/-- A scratch register that is saved in itself stays in the way. -/
theorem not_ends_of_blocked (hblocked : pickReady [] (mv :: rest) = none) (heq : mv.dst = scratch)
    (is : List Inst) : ¬ Ends scratch (mv :: rest) is := by
  have hsame : round scratch mv rest = (.copy scratch mv.dst, mv :: rest) := by
    rw [round_of_blocked hblocked, heq, List.map_congr_left fun x _ => replaceRead_self scratch x,
      List.map_id']
  induction is with
  | nil => rintro ⟨⟩
  | cons i is ih =>
    intro hends
    obtain ⟨is', hrest, his⟩ := (ends_cons_iff hsame).mp hends
    obtain ⟨-, rfl⟩ := List.cons.inj his
    exact ih hrest

end

/-! ## The loop and the order -/

theorem order_eq_some_iff {scratch : Reg} {fuel : Nat} {moves : List Move}
    (hfuel : moves.length ≤ fuel) {is : List Inst} :
    order scratch fuel moves = some is ↔ Ends scratch moves is := by
  induction fuel generalizing moves is with
  | zero =>
    obtain rfl := List.eq_nil_of_length_eq_zero (Nat.le_zero.mp hfuel)
    simp [order, ends_nil_iff, eq_comm]
  | succ fuel ih =>
    cases moves with
    | nil => simp [order, ends_nil_iff, eq_comm]
    | cons mv rest =>
      rw [List.length_cons] at hfuel
      cases hpick : pickReady [] (mv :: rest) with
      | some picked =>
        obtain ⟨ready, others⟩ := picked
        have hlen := (pickReady_eq_some hpick).1.length_eq
        simp only [List.nil_append, List.length_cons] at hlen
        simp only [order, hpick, ends_cons_iff (round_of_ready hpick), Option.map_eq_some_iff,
          ih (show others.length ≤ fuel by omega)]
      | none =>
        by_cases hscratch : mv.dst = scratch
        · simp only [order, hpick, hscratch, if_true, reduceCtorEq, false_iff]
          exact not_ends_of_blocked hpick hscratch is
        · have hlen : (rest.map (replaceRead mv.dst scratch)).length ≤ fuel := by simp; omega
          simp only [order, hpick, if_neg hscratch, ends_blocked_iff hpick hscratch,
            Option.map_eq_some_iff, ih hlen]

theorem sequence_eq_some_iff {scratch : Reg} {moves : List Move} {is : List Inst} :
    sequence scratch moves = some is ↔ Ends scratch (moves.filter (!·.isTrivial)) is :=
  order_eq_some_iff (Nat.le_refl _)

theorem length_order_le {scratch : Reg} {fuel : Nat} {moves : List Move} {is : List Inst}
    (h : order scratch fuel moves = some is) : is.length ≤ 2 * fuel := by
  induction fuel generalizing moves is with
  | zero => cases moves <;> cases h <;> simp
  | succ fuel ih =>
    cases moves with
    | nil =>
      cases h
      simp
    | cons mv rest =>
      simp only [order] at h
      split at h
      · obtain ⟨is', his', rfl⟩ := Option.map_eq_some_iff.mp h
        have := ih his'
        simp only [List.length_cons]
        omega
      · split at h
        · cases h
        · obtain ⟨is', his', rfl⟩ := Option.map_eq_some_iff.mp h
          have := ih his'
          simp only [List.length_cons]
          omega

/-- The loop ends after at most two rounds a move, and the moves may read any registers: the
destinations of each other or their own, or the scratch register. -/
theorem loop_moves_at_once {scratch : Reg} {moves : List Move} (hdsts : (moves.map dst).Nodup)
    (hscratch : scratch ∉ moves.map dst) :
    ∃ is, sequence scratch moves = some is ∧ Ends scratch (moves.filter (!·.isTrivial)) is ∧
      is.length ≤ 2 * moves.length ∧
      ∀ m : Machine, ∃ m', m.run is = some m' ∧ (∀ mv ∈ moves, m'.regs mv.dst = mv.value m) ∧
        (∀ r, r ∉ moves.map dst → r ≠ scratch → m'.regs r = m.regs r) ∧ m'.mem = m.mem := by
  obtain ⟨is, hseq, hruns⟩ := exists_sequence hdsts hscratch
  have hlen : is.length ≤ 2 * (moves.filter (!·.isTrivial)).length := length_order_le hseq
  have hfilter := List.length_filter_le (!·.isTrivial) moves
  refine ⟨is, hseq, sequence_eq_some_iff.mp hseq, by omega, fun m => ?_⟩
  obtain ⟨m', hrun, h⟩ := hruns m
  exact ⟨m', hrun, h.moved, h.kept, h.mem⟩

/-- Two cycles, a load over its own base, a read of the scratch register and a copy that does
nothing. -/
def twoCycles : List Move :=
  [copy (.ofBits 10) (.ofBits 11), copy (.ofBits 11) (.ofBits 10),
    ⟨.ofBits 12, .load (.ofBits 12) 4⟩, copy (.ofBits 13) (.ofBits 1), copy (.ofBits 14) (.ofBits 15),
    copy (.ofBits 15) (.ofBits 14), copy (.ofBits 16) (.ofBits 16)]

theorem loop_moves_at_once_twoCycles :
    (twoCycles.map dst).Nodup ∧ .ofBits 1 ∉ twoCycles.map dst ∧
      ∃ is, is.length = 8 ∧ Ends (.ofBits 1) (twoCycles.filter (!·.isTrivial)) is ∧
        ∀ m : Machine, ∃ m', m.run is = some m' ∧ m'.regs (.ofBits 10) = m.regs (.ofBits 11) ∧
          m'.regs (.ofBits 11) = m.regs (.ofBits 10) ∧
          m'.regs (.ofBits 12) = m.word (m.regs (.ofBits 12) + 4) ∧
          m'.regs (.ofBits 13) = m.regs (.ofBits 1) ∧ m'.regs (.ofBits 14) = m.regs (.ofBits 15) ∧
          m'.regs (.ofBits 15) = m.regs (.ofBits 14) ∧ m'.regs (.ofBits 2) = m.regs (.ofBits 2) := by
  have hdsts : (twoCycles.map dst).Nodup := by decide
  have hscratch : .ofBits 1 ∉ twoCycles.map dst := by decide
  have hlength : (sequence (.ofBits 1) twoCycles).map List.length = some 8 := by decide
  obtain ⟨is, hseq, hends, -, hruns⟩ := loop_moves_at_once hdsts hscratch
  rw [hseq] at hlength
  refine ⟨hdsts, hscratch, is, Option.some.inj hlength, hends, fun m => ?_⟩
  obtain ⟨m', hrun, hmoved, hkept, -⟩ := hruns m
  simp only [twoCycles, List.forall_mem_cons] at hmoved
  obtain ⟨h10, h11, h12, h13, h14, h15, -⟩ := hmoved
  exact ⟨m', hrun, h10, h11, h12, h13, h14, h15, hkept _ (by decide) (by decide)⟩

end Dlx.Move
