import Dlx.Call.Move
import Dlx.Proofs.Call.Machine
import Mathlib.Data.List.Nodup
import Mathlib.Data.List.Perm.Subperm

/-!
# Moves happen at once

The moves of a call may read each other's destinations in any pattern of chains and cycles. The
order in which they are emitted gives every destination the value that its source had at the start.

A move that no other waits for goes first, and then nothing that is left reads what it overwrote. If
every move is waited for, there are as many reads as destinations and each destination is read, so
the moves are a permutation (`perm_of_blocked`): no destination is read twice, and the scratch
register, being no destination, is not read at all. That is why one scratch register is enough for
any number of cycles, one after the other.

Results:
* `exists_sequence`: every list of moves to distinct registers other than the scratch register has an
  order, and running it makes all moves at once, from any state of the machine.
-/
namespace Dlx.Move

/-- The value that the source of a move has. -/
def value (mv : Move) (m : Machine) : UInt32 :=
  match mv.src with
  | .reg r => m.regs r
  | .load base offset => m.word (m.regs base + immWord offset)

theorem step_copy (m : Machine) (dst src : Reg) :
    m.step (.copy dst src) = some (m.setReg dst (m.regs src)) := by
  have : immWord 0 = 0 := rfl
  simp [Inst.copy, Inst.regImm, Machine.step, this]

theorem step_inst (mv : Move) (m : Machine) :
    m.step mv.inst = some (m.setReg mv.dst (mv.value m)) := by
  obtain ⟨dst, r | ⟨base, offset⟩⟩ := mv
  · exact step_copy m dst r
  · rfl

theorem value_congr {mv : Move} {m m' : Machine} (hreg : m'.regs mv.readReg = m.regs mv.readReg)
    (hmem : m'.mem = m.mem) : mv.value m' = mv.value m := by
  obtain ⟨dst, r | ⟨base, offset⟩⟩ := mv
  · exact hreg
  · simp only [readReg] at hreg
    simp only [value, Machine.word, Machine.read, hreg, hmem]

@[simp] theorem dst_replaceRead (old new : Reg) (mv : Move) :
    (mv.replaceRead old new).dst = mv.dst := by
  unfold replaceRead
  split
  · split <;> rfl
  · rfl

theorem replaceRead_of_ne {old new : Reg} {mv : Move} (h : mv.readReg ≠ old) :
    mv.replaceRead old new = mv := if_neg h

/-- Reading a copy gives the value of the original. -/
theorem value_replaceRead {old new : Reg} {mv : Move} {m m' : Machine} (hread : mv.readReg = old)
    (hreg : m'.regs new = m.regs old) (hmem : m'.mem = m.mem) :
    (mv.replaceRead old new).value m' = mv.value m := by
  obtain ⟨dst, r | ⟨base, offset⟩⟩ := mv
  · simp only [readReg] at hread
    simp [replaceRead, readReg, value, hread, hreg]
  · simp only [readReg] at hread
    simp only [replaceRead, readReg, hread, if_true, value, Machine.word, Machine.read, hreg, hmem]

/-! ## Choosing a move -/

theorem pickReady_eq_some {seen moves others : List Move} {ready : Move}
    (h : pickReady seen moves = some (ready, others)) :
    (ready :: others).Perm (seen ++ moves) ∧ ∀ x ∈ others, x.readReg ≠ ready.dst := by
  induction moves generalizing seen with
  | nil => cases h
  | cons m rest ih =>
    rw [pickReady] at h
    split at h
    · next hready =>
      cases h
      exact ⟨List.perm_middle.symm, fun x hx => by simpa using List.all_eq_true.mp hready x hx⟩
    · simpa using ih h

/-- If no move can go first, every one writes what another reads. -/
theorem pickReady_eq_none {seen moves : List Move} (h : pickReady seen moves = none)
    {before after : List Move} {mv : Move} (hmoves : moves = before ++ mv :: after) :
    ∃ x ∈ seen ++ before ++ after, x.readReg = mv.dst := by
  induction moves generalizing seen before with
  | nil => simp at hmoves
  | cons m rest ih =>
    rw [pickReady] at h
    split at h
    · cases h
    · next hblocked =>
      cases before with
      | nil =>
        cases hmoves
        simp only [List.all_eq_true, decide_eq_true_eq, not_forall, not_not, exists_prop] at hblocked
        simpa using hblocked
      | cons b before =>
        cases hmoves
        simpa using ih h rfl

/-- Moves of which each is waited for permute their destinations. -/
theorem perm_of_blocked {moves : List Move} (hdsts : (moves.map dst).Nodup)
    (hblocked : ∀ mv ∈ moves, ∃ x ∈ moves, x.readReg = mv.dst) :
    (moves.map dst).Perm (moves.map readReg) := by
  refine (List.subperm_of_subset hdsts ?_).perm_of_length_le (by simp)
  intro r hr
  obtain ⟨mv, hmv, rfl⟩ := List.mem_map.mp hr
  obtain ⟨x, hx, hread⟩ := hblocked mv hmv
  exact List.mem_map.mpr ⟨x, hx, hread⟩

/-- If no move can go first, the registers read are the destinations in another order. So nobody reads
the scratch register, and a move does not read its own destination, which another one reads. -/
theorem reads_of_blocked {scratch : Reg} {mv : Move} {rest : List Move}
    (hpick : pickReady [] (mv :: rest) = none) (hdsts : ((mv :: rest).map dst).Nodup)
    (hscratch : scratch ∉ (mv :: rest).map dst) :
    (∀ x ∈ mv :: rest, x.readReg ≠ scratch) ∧ mv.readReg ≠ mv.dst := by
  have hblocked : ∀ x ∈ mv :: rest, ∃ y ∈ mv :: rest, y.readReg = x.dst := by
    intro x hx
    obtain ⟨before, after, hsplit⟩ := List.append_of_mem hx
    obtain ⟨y, hy, hread⟩ := pickReady_eq_none hpick hsplit
    refine ⟨y, ?_, hread⟩
    rw [hsplit]
    simp only [List.nil_append, List.mem_append, List.mem_cons] at hy ⊢
    tauto
  have hperm := perm_of_blocked hdsts hblocked
  refine ⟨?_, ?_⟩
  · rintro x hx rfl
    exact hscratch (hperm.mem_iff.mpr (List.mem_map_of_mem hx))
  · obtain ⟨y, hy, hyread⟩ := pickReady_eq_none hpick (List.nil_append (mv :: rest)).symm
    have hreads := (hperm.nodup_iff).mp hdsts
    rw [List.map_cons, List.nodup_cons] at hreads
    intro heq
    exact hreads.1 (List.mem_map.mpr ⟨y, hy, hyread.trans heq.symm⟩)

/-! ## Running the order -/

/-- From one machine to the other all moves happen at once; apart from the destinations only the
scratch register may change. -/
structure AtOnce (scratch : Reg) (moves : List Move) (m m' : Machine) : Prop where
  moved : ∀ mv ∈ moves, m'.regs mv.dst = mv.value m
  kept : ∀ r, r ∉ moves.map dst → r ≠ scratch → m'.regs r = m.regs r
  mem : m'.mem = m.mem

section
variable {scratch : Reg} {m m' : Machine}

theorem AtOnce.perm {moves moves' : List Move} (h : AtOnce scratch moves m m')
    (hperm : moves.Perm moves') : AtOnce scratch moves' m m' where
  moved mv hmv := h.moved mv (hperm.mem_iff.mpr hmv)
  kept r hr hscratch := h.kept r (fun hmem => hr ((hperm.map dst).mem_iff.mp hmem)) hscratch
  mem := h.mem

/-- A move whose destination nobody else reads may go first. -/
theorem AtOnce.cons {ready : Move} {others : List Move} (hdst : ready.dst ∉ others.map dst)
    (hscratch : ready.dst ≠ scratch) (hread : ∀ x ∈ others, x.readReg ≠ ready.dst)
    (h : AtOnce scratch others (m.setReg ready.dst (ready.value m)) m') :
    AtOnce scratch (ready :: others) m m' where
  moved mv hmv := by
    rcases List.mem_cons.mp hmv with rfl | hmv
    · rw [h.kept _ hdst hscratch, Machine.regs_setReg_self]
    · rw [h.moved mv hmv]
      exact value_congr (Machine.regs_setReg_of_ne _ _ (hread mv hmv)) rfl
  kept r hr hne := by
    simp only [List.map_cons, List.mem_cons, not_or] at hr
    rw [h.kept r hr.2 hne, Machine.regs_setReg_of_ne _ _ hr.1]
  mem := h.mem

/-- If nobody reads the scratch register, a move may go first once what it overwrites is saved
there. -/
theorem AtOnce.cons_saved {mv : Move} {rest : List Move} (hdst : mv.dst ∉ rest.map dst)
    (hscratch : mv.dst ≠ scratch) (hread : ∀ x ∈ mv :: rest, x.readReg ≠ scratch)
    (h : AtOnce scratch (rest.map (replaceRead mv.dst scratch))
      ((m.setReg scratch (m.regs mv.dst)).setReg mv.dst (mv.value m)) m') :
    AtOnce scratch (mv :: rest) m m' := by
  have hmap : (rest.map (replaceRead mv.dst scratch)).map dst = rest.map dst := by
    simp [Function.comp_def]
  have hsaved : ((m.setReg scratch (m.regs mv.dst)).setReg mv.dst (mv.value m)).regs scratch =
      m.regs mv.dst := by
    rw [Machine.regs_setReg_of_ne _ _ hscratch.symm, Machine.regs_setReg_self]
  refine ⟨?_, ?_, h.mem⟩
  · intro x hx
    rcases List.mem_cons.mp hx with rfl | hrest
    · rw [h.kept _ (hmap ▸ hdst) hscratch, Machine.regs_setReg_self]
    · have hmoved := h.moved _ (List.mem_map_of_mem hrest)
      rw [dst_replaceRead] at hmoved
      rw [hmoved]
      by_cases hx' : x.readReg = mv.dst
      · exact value_replaceRead hx' hsaved rfl
      · rw [replaceRead_of_ne hx']
        refine value_congr ?_ rfl
        rw [Machine.regs_setReg_of_ne _ _ hx', Machine.regs_setReg_of_ne _ _ (hread x hx)]
  · intro r hr hne
    simp only [List.map_cons, List.mem_cons, not_or] at hr
    rw [h.kept r (hmap ▸ hr.2) hne, Machine.regs_setReg_of_ne _ _ hr.1,
      Machine.regs_setReg_of_ne _ _ hne]

end

theorem exists_order {scratch : Reg} {moves : List Move} {fuel : Nat}
    (hfuel : moves.length ≤ fuel) (hdsts : (moves.map dst).Nodup)
    (hscratch : scratch ∉ moves.map dst) :
    ∃ is, order scratch fuel moves = some is ∧
      ∀ m : Machine, ∃ m', m.run is = some m' ∧ AtOnce scratch moves m m' := by
  induction fuel generalizing moves with
  | zero =>
    obtain rfl := List.eq_nil_of_length_eq_zero (Nat.le_zero.mp hfuel)
    exact ⟨[], rfl, fun m => ⟨m, rfl, by simp, by simp, rfl⟩⟩
  | succ fuel ih =>
    cases moves with
    | nil => exact ⟨[], rfl, fun m => ⟨m, rfl, by simp, by simp, rfl⟩⟩
    | cons mv rest =>
      cases hpick : pickReady [] (mv :: rest) with
      | some picked =>
        obtain ⟨ready, others⟩ := picked
        obtain ⟨hperm, hread⟩ := pickReady_eq_some hpick
        rw [List.nil_append] at hperm
        obtain ⟨hdst, hothers⟩ := List.nodup_cons.mp (((hperm.map dst).nodup_iff).mpr hdsts)
        have hscratch' : scratch ∉ (ready :: others).map dst :=
          fun hmem => hscratch ((hperm.map dst).mem_iff.mp hmem)
        rw [List.map_cons, List.mem_cons, not_or] at hscratch'
        have hlen := hperm.length_eq
        simp only [List.length_cons] at hlen hfuel
        obtain ⟨is, horder, hruns⟩ := @ih others (by omega) hothers hscratch'.2
        refine ⟨ready.inst :: is, by simp [order, hpick, horder], fun m => ?_⟩
        obtain ⟨m', hrun, h⟩ := hruns (m.setReg ready.dst (ready.value m))
        refine ⟨m', ?_, (AtOnce.cons hdst (Ne.symm hscratch'.1) hread h).perm hperm⟩
        rw [Machine.run, step_inst]
        exact hrun
      | none =>
        obtain ⟨hread, hself⟩ := reads_of_blocked hpick hdsts hscratch
        rw [List.map_cons, List.nodup_cons] at hdsts
        rw [List.map_cons, List.mem_cons, not_or] at hscratch
        have hmap : (rest.map (replaceRead mv.dst scratch)).map dst = rest.map dst := by
          simp [Function.comp_def]
        obtain ⟨is, horder, hruns⟩ := @ih (rest.map (replaceRead mv.dst scratch))
          (by simpa using hfuel) (hmap ▸ hdsts.2) (hmap ▸ hscratch.2)
        refine ⟨.copy scratch mv.dst :: mv.inst :: is, ?_, fun m => ?_⟩
        · simp [order, hpick, horder, replaceRead_of_ne hself, Ne.symm hscratch.1]
        · obtain ⟨m', hrun, h⟩ :=
            hruns ((m.setReg scratch (m.regs mv.dst)).setReg mv.dst (mv.value m))
          have hvalue : mv.value (m.setReg scratch (m.regs mv.dst)) = mv.value m :=
            value_congr (Machine.regs_setReg_of_ne _ _ (hread mv List.mem_cons_self)) rfl
          refine ⟨m', ?_, AtOnce.cons_saved hdsts.1 (Ne.symm hscratch.1) hread h⟩
          rw [Machine.run, step_copy, Option.bind_some, Machine.run, step_inst, hvalue]
          exact hrun

/-- No other move writes to the destination of a trivial one, so it stays without it. -/
theorem AtOnce.of_filter {scratch : Reg} {moves : List Move} {m m' : Machine}
    (hdsts : (moves.map dst).Nodup) (hscratch : scratch ∉ moves.map dst)
    (h : AtOnce scratch (moves.filter (!·.isTrivial)) m m') : AtOnce scratch moves m m' := by
  have hsub : ((moves.filter (!·.isTrivial)).map dst).Sublist (moves.map dst) :=
    List.filter_sublist.map dst
  refine ⟨?_, fun r hr hne => h.kept r (fun hmem => hr (hsub.subset hmem)) hne, h.mem⟩
  intro mv hmv
  by_cases htrivial : mv.isTrivial
  · have hout : mv.dst ∉ (moves.filter (!·.isTrivial)).map dst := by
      intro hmem
      obtain ⟨x, hx, hdst⟩ := List.mem_map.mp hmem
      rw [List.mem_filter] at hx
      have hsame := List.inj_on_of_nodup_map hdsts hx.1 hmv hdst
      rw [hsame] at hx
      simp [htrivial] at hx
    have hne : mv.dst ≠ scratch := by
      rintro rfl
      exact hscratch (List.mem_map_of_mem hmv)
    rw [h.kept _ hout hne, value, of_decide_eq_true htrivial]
  · exact h.moved mv (List.mem_filter.mpr ⟨hmv, by simpa using htrivial⟩)

theorem exists_sequence {scratch : Reg} {moves : List Move} (hdsts : (moves.map dst).Nodup)
    (hscratch : scratch ∉ moves.map dst) :
    ∃ is, sequence scratch moves = some is ∧
      ∀ m : Machine, ∃ m', m.run is = some m' ∧ AtOnce scratch moves m m' := by
  have hsub : ((moves.filter (!·.isTrivial)).map dst).Sublist (moves.map dst) :=
    List.filter_sublist.map dst
  obtain ⟨is, horder, hruns⟩ := exists_order (Nat.le_refl _) (hsub.nodup hdsts) fun hmem =>
    hscratch (hsub.subset hmem)
  refine ⟨is, horder, fun m => ?_⟩
  obtain ⟨m', hrun, h⟩ := hruns m
  exact ⟨m', hrun, h.of_filter hdsts hscratch⟩

theorem run_sequence {scratch : Reg} {moves : List Move} (m : Machine)
    (hdsts : (moves.map dst).Nodup) (hscratch : scratch ∉ moves.map dst) :
    ∃ is m', sequence scratch moves = some is ∧ m.run is = some m' ∧
      AtOnce scratch moves m m' := by
  obtain ⟨is, hseq, hruns⟩ := exists_sequence hdsts hscratch
  obtain ⟨m', hrun, h⟩ := hruns m
  exact ⟨is, m', hseq, hrun, h⟩

end Dlx.Move
