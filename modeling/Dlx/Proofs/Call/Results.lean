import Dlx.Proofs.Call.Delivery
import Dlx.Proofs.Call.Monotonic

/-!
# Results in their registers

A return fills the result registers in order, one for each word, and jumps back. Whether it can is
asked in two places: the allocator runs out of registers if the results have too many words, and a
result whose holder has another form than its registers is refused. Together they accept exactly the
results that fit and are held in the form that their types ask for.

The words of all results, one after the other, then face the result registers, one after the other
(`allResultMoves_eq_ok_iff`), and the moves between them happen at once.

Results:
* `placeResults_eq_ok`, `placeResults_eq_error`: results have registers exactly if there are as many
  as words, and then they have the next ones.
* `return_delivers_results`: which returns are accepted, and what they do.
-/
namespace Dlx

/-- The registers that a value is held in, the low word first. -/
def Holder.regs : Holder → List Reg
  | .reg r => [r]
  | .pair lo hi => [lo, hi]
  | .memory _ _ => []

/-- The words of all values together. -/
def totalWords : List ValueType → Nat
  | [] => 0
  | t :: rest => t.words + totalWords rest

/-! ## Registers for the results -/

/-- The value is passed in registers, one for each of its words. -/
def Location.Carries (t : ValueType) : Location → Prop
  | reg _ => t.isTwoWords = false
  | pair _ _ => t.isTwoWords = true
  | _ => False

namespace CallState

variable {roles : RegisterRoles} {s : CallState}

/-- A value takes the next registers of a list, if there are enough. -/
theorem takeRegs?_of_le {list : List Reg} {t : ValueType} (hlist : list.Nodup)
    (hused : s.used <+: list) (hfit : s.used.length + t.words ≤ list.length) :
    ∃ loc s', s.takeRegs? list t = some (loc, s') ∧ loc.Carries t ∧
      loc.regs = (list.drop s.used.length).take t.words ∧
      s'.used <+: list ∧ s'.used.length = s.used.length + t.words := by
  have hfree := filter_isFree hlist hused List.prefix_rfl
  have hwithin : ∀ taken, taken <+: list.drop s.used.length → s.used ++ taken <+: list :=
    fun _ htaken => used_append_within hused List.prefix_rfl htaken
  have hlen := List.length_drop (l := list) (i := s.used.length)
  unfold takeRegs? ValueType.words at *
  by_cases ht : t.isTwoWords
  · rw [if_pos ht] at hfit ⊢
    rw [if_pos ht, takePair?, hfree]
    generalize list.drop s.used.length = free at *
    obtain _ | ⟨lo, _ | ⟨hi, rest⟩⟩ := free
    · rw [List.length_nil] at hlen
      omega
    · rw [List.length_singleton] at hlen
      omega
    · exact ⟨.pair lo hi, _, rfl, ht, rfl, hwithin [lo, hi] ⟨rest, rfl⟩, List.length_append⟩
  · rw [if_neg ht] at hfit ⊢
    rw [if_neg ht, takeReg?_eq hlist hused List.prefix_rfl]
    generalize list.drop s.used.length = free at *
    cases free with
    | nil =>
      rw [List.length_nil] at hlen
      omega
    | cons r rest =>
      exact ⟨.reg r, _, rfl, eq_false_of_ne_true ht, rfl, hwithin [r] ⟨rest, rfl⟩,
        List.length_append⟩

/-- Results that fit have the next registers, one for each word. -/
theorem placeResults_eq_ok (types : List ValueType) (hresults : roles.results.Nodup)
    (hused : s.used <+: roles.results)
    (hfit : s.used.length + totalWords types ≤ roles.results.length) :
    ∃ locs, s.placeResults roles types = .ok locs ∧
      List.Forall₂ (fun t loc => loc.Carries t) types locs ∧
      locs.flatMap Location.regs = (roles.results.drop s.used.length).take (totalWords types) := by
  induction types generalizing s with
  | nil => exact ⟨[], rfl, .nil, by simp [totalWords]⟩
  | cons t rest ih =>
    rw [totalWords] at hfit ⊢
    obtain ⟨loc, s', htake, hcarries, hregs, hused', hlen⟩ :=
      takeRegs?_of_le (t := t) hresults hused (by omega)
    obtain ⟨locs, hlocs, hall, hmore⟩ := ih hused' (by omega)
    refine ⟨loc :: locs, ?_, .cons hcarries hall, ?_⟩
    · simp only [placeResults, htake, hlocs]
      rfl
    · rw [List.flatMap_cons, hregs, hmore, hlen, List.take_add, List.drop_drop]

/-- Results with more words than there are registers left are refused. -/
theorem placeResults_eq_error (types : List ValueType) (hresults : roles.results.Nodup)
    (hused : s.used <+: roles.results)
    (hfull : roles.results.length < s.used.length + totalWords types) :
    s.placeResults roles types = .error .returnSplit := by
  induction types generalizing s with
  | nil =>
    have := hused.length_le
    rw [totalWords] at hfull
    omega
  | cons t rest ih =>
    rw [totalWords] at hfull
    by_cases hfit : s.used.length + t.words ≤ roles.results.length
    · obtain ⟨loc, s', htake, -, -, hused', hlen⟩ :=
        takeRegs?_of_le (t := t) hresults hused hfit
      simp only [placeResults, htake, ih hused' (by omega)]
      rfl
    · have hnone : s.takeRegs? roles.results t = none := by
        have := hused.length_le
        rw [takeRegs?_eq_none_iff, filter_isFree hresults hused List.prefix_rfl, List.length_drop]
        omega
      simp only [placeResults, hnone]

end CallState

/-! ## The moves of a return -/

/-- A value in registers moves into its location exactly if it is held in the form that its type asks
for. -/
theorem resultMoves_eq_ok_iff {index : Nat} {t : ValueType} {holder : Holder} {loc : Location}
    {moves : List Move} (hloc : loc.Carries t) :
    resultMoves index holder loc = .ok moves ↔
      HeldArgument.Shaped ⟨.value t, holder⟩ ∧
        List.zipWith Move.copy loc.regs holder.regs = moves := by
  cases loc <;> cases holder <;>
    simp_all [Location.Carries, resultMoves, HeldArgument.Shaped, Location.regs, Holder.regs]

/-- A value that is held in its form is held in as many registers as its location has. -/
theorem length_regs_of_carries {t : ValueType} {holder : Holder} {loc : Location}
    (hloc : loc.Carries t) (hshape : HeldArgument.Shaped ⟨.value t, holder⟩) :
    loc.regs.length = holder.regs.length := by
  cases loc <;> cases holder <;>
    simp_all [Location.Carries, HeldArgument.Shaped, Location.regs, Holder.regs]

theorem allResultMoves_eq_ok_iff {index : Nat} {values : List (ValueType × Holder)}
    {locs : List Location} {moves : List Move}
    (hlocs : List.Forall₂ (fun t loc => loc.Carries t) (values.map (·.1)) locs) :
    allResultMoves index ((values.map (·.2)).zip locs) = .ok moves ↔
      (∀ v ∈ values, HeldArgument.Shaped ⟨.value v.1, v.2⟩) ∧
        List.zipWith Move.copy (locs.flatMap Location.regs) (values.flatMap (·.2.regs)) =
          moves := by
  induction values generalizing index locs moves with
  | nil =>
    cases hlocs
    simp [allResultMoves]
  | cons v rest ih =>
    cases hlocs with
    | @cons _ loc _ locs hloc hlocs =>
      simp only [List.map_cons, List.zip_cons_cons, allResultMoves, Except.bind_eq_ok_iff,
        resultMoves_eq_ok_iff hloc, ih hlocs, List.forall_mem_cons, List.flatMap_cons]
      constructor
      · rintro ⟨_, ⟨hshape, rfl⟩, _, ⟨hrest, rfl⟩, hmoves⟩
        refine ⟨⟨hshape, hrest⟩, ?_⟩
        rw [List.zipWith_append (length_regs_of_carries hloc hshape)]
        exact Except.ok.inj hmoves
      · rintro ⟨⟨hshape, hrest⟩, rfl⟩
        refine ⟨_, ⟨hshape, rfl⟩, _, ⟨hrest, rfl⟩, ?_⟩
        rw [List.zipWith_append (length_regs_of_carries hloc hshape)]
        rfl

/-- Values that are held in their form are held in as many registers as they have words. -/
theorem length_flatMap_regs {values : List (ValueType × Holder)}
    (h : ∀ v ∈ values, HeldArgument.Shaped ⟨.value v.1, v.2⟩) :
    (values.flatMap (·.2.regs)).length = totalWords (values.map (·.1)) := by
  induction values with
  | nil => rfl
  | cons v rest ih =>
    obtain ⟨hshape, hrest⟩ := List.forall_mem_cons.mp h
    obtain ⟨t, holder⟩ := v
    rw [List.flatMap_cons, List.length_append, ih hrest, List.map_cons, totalWords]
    cases holder <;> simp_all [HeldArgument.Shaped, Holder.regs, ValueType.words]

/-- Copies have the destinations that they were made for. -/
theorem map_dst_zipWith_copy {dsts srcs : List Reg} (h : dsts.length ≤ srcs.length) :
    (List.zipWith Move.copy dsts srcs).map Move.dst = dsts := by
  rw [← List.map_uncurry_zip_eq_zipWith, List.map_map]
  exact List.map_fst_zip h

/-- Registers are copied to as many others at once, at the cost of the scratch register. -/
theorem run_copies {scratch : Reg} {dsts srcs : List Reg} (m : Machine)
    (hlen : dsts.length = srcs.length) (hdsts : dsts.Nodup) (hscratch : scratch ∉ dsts) :
    ∃ is m', Move.sequence scratch (List.zipWith Move.copy dsts srcs) = some is ∧
      m.run is = some m' ∧ m'.mem = m.mem ∧
      (∀ (k : Nat) dst src, dsts[k]? = some dst → srcs[k]? = some src →
        m'.regs dst = m.regs src) ∧
      ∀ r, r ∉ dsts → r ≠ scratch → m'.regs r = m.regs r := by
  have hmap := map_dst_zipWith_copy (Nat.le_of_eq hlen)
  rw [← hmap] at hdsts hscratch
  obtain ⟨is, m', hseq, hrun, hatOnce⟩ := Move.run_sequence m hdsts hscratch
  refine ⟨is, m', hseq, hrun, hatOnce.mem, ?_, ?_⟩
  · intro k dst src hdst hsrc
    refine hatOnce.moved (.copy dst src) (List.mem_of_getElem? (i := k) ?_)
    rw [List.getElem?_zipWith, hdst, hsrc]
  · intro r hr
    rw [← hmap] at hr
    exact hatOnce.kept r hr

/-! ## The whole return -/

/-- A return whose results fit: it is accepted exactly if they are held in their form, and its moves
take the words of the results to the first result registers. -/
theorem returnSequence_eq_ok_iff {target : CallTarget} {cc : Convention}
    {values : List (ValueType × Holder)} {is : List Inst} (hcc : cc = .c ∨ cc = .fast)
    (hresults : target.roles.results.Nodup) :
    returnSequence target cc values = .ok is ↔
      totalWords (values.map (·.1)) ≤ target.roles.results.length ∧
        (∀ v ∈ values, HeldArgument.Shaped ⟨.value v.1, v.2⟩) ∧
        ∃ before, sequenceMoves target.roles
            (List.zipWith Move.copy
              (target.roles.results.take (totalWords (values.map (·.1))))
              (values.flatMap (·.2.regs))) = .ok before ∧
          is = before ++ [⟨.jr, [.reg target.roles.ra]⟩] := by
  have hlayout : returnLayout cc target.roles (values.map (·.1)) =
      CallState.empty.placeResults target.roles (values.map (·.1)) := by
    rcases hcc with rfl | rfl <;> rfl
  simp only [returnSequence, hlayout, Except.bind_eq_ok_iff]
  by_cases hfit : totalWords (values.map (·.1)) ≤ target.roles.results.length
  · obtain ⟨locs, hplace, hcarries, hregs⟩ := CallState.placeResults_eq_ok (s := .empty)
      (values.map (·.1)) hresults List.nil_prefix (by simpa [CallState.empty] using hfit)
    rw [show CallState.empty.used.length = 0 from rfl, List.drop_zero] at hregs
    simp only [hplace, Except.ok.injEq, exists_eq_left', allResultMoves_eq_ok_iff hcarries, hregs]
    constructor
    · rintro ⟨_, ⟨hshape, rfl⟩, before, hbefore, his⟩
      exact ⟨hfit, hshape, before, hbefore, (Except.ok.inj his).symm⟩
    · rintro ⟨-, hshape, before, hbefore, rfl⟩
      exact ⟨_, ⟨hshape, rfl⟩, before, hbefore, rfl⟩
  · have herror := CallState.placeResults_eq_error (s := .empty) (values.map (·.1))
      hresults List.nil_prefix (by simpa [CallState.empty] using hfit)
    simp [herror, hfit]

/-- A return is accepted exactly if its results have no more words than there are result registers
and each is held in the form that its type asks for. Then the instructions in front of the jump back
run from every state of the machine. They leave each word of the results, as it was at the start, in
the result register of the same position, and change nothing but these registers and the scratch
register. -/
theorem return_delivers_results (cc : Convention) (values : List (ValueType × Holder))
    (hcc : cc = .c ∨ cc = .fast) :
    ((∃ is, returnSequence ⟨Target.dlx.roles, Target.dlx.stackAlign⟩ cc values = .ok is) ↔
      totalWords (values.map (·.1)) ≤ 2 ∧
        ∀ v ∈ values, HeldArgument.Shaped ⟨.value v.1, v.2⟩) ∧
    ∀ is, returnSequence ⟨Target.dlx.roles, Target.dlx.stackAlign⟩ cc values = .ok is →
      (values.flatMap (·.2.regs)).length = totalWords (values.map (·.1)) ∧
      ∃ before, is = before ++ [⟨.jr, [.reg Target.dlx.roles.ra]⟩] ∧
        ∀ m : Machine, ∃ m', m.run before = some m' ∧ m'.mem = m.mem ∧
          (∀ (k : Nat) src, (values.flatMap (·.2.regs))[k]? = some src →
            ∃ dst, Target.dlx.roles.results[k]? = some dst ∧ m'.regs dst = m.regs src) ∧
          ∀ r, r ∉ Target.dlx.roles.results.take (totalWords (values.map (·.1))) →
            r ≠ Target.dlx.roles.scratch → m'.regs r = m.regs r := by
  have hresults : Target.dlx.roles.results.Nodup := by decide
  have hscratch : Target.dlx.roles.scratch ∉ Target.dlx.roles.results := by decide
  -- The registers that are filled are as many as those that are read.
  have hrun := fun hfit hshape m => @run_copies Target.dlx.roles.scratch
    (Target.dlx.roles.results.take (totalWords (values.map (·.1)))) _ m
    ((List.length_take_of_le hfit).trans (length_flatMap_regs hshape).symm)
    ((List.take_sublist _ _).nodup hresults) fun hmem => hscratch (List.mem_of_mem_take hmem)
  refine ⟨⟨?_, ?_⟩, ?_⟩
  · rintro ⟨is, hreturn⟩
    obtain ⟨hfit, hshape, -⟩ := (returnSequence_eq_ok_iff hcc hresults).mp hreturn
    exact ⟨hfit, hshape⟩
  · rintro ⟨hfit, hshape⟩
    obtain ⟨before, -, hseq, -⟩ := hrun hfit hshape ⟨fun _ => 0, fun _ => 0⟩
    exact ⟨_, (returnSequence_eq_ok_iff hcc hresults).mpr
      ⟨hfit, hshape, before, sequenceMoves_eq_ok_iff.mpr hseq, rfl⟩⟩
  · intro is hreturn
    obtain ⟨hfit, hshape, before, hbefore, rfl⟩ :=
      (returnSequence_eq_ok_iff hcc hresults).mp hreturn
    have hlen := length_flatMap_regs hshape
    refine ⟨hlen, before, rfl, fun m => ?_⟩
    obtain ⟨before', m', hseq, hrun', hmem, hwords, hkept⟩ := hrun hfit hshape m
    obtain rfl : before' = before :=
      Option.some.inj (hseq.symm.trans (sequenceMoves_eq_ok_iff.mp hbefore))
    refine ⟨m', hrun', hmem, ?_, hkept⟩
    intro k src hsrc
    have hk : k < totalWords (values.map (·.1)) := hlen ▸ (List.getElem?_eq_some_iff.mp hsrc).1
    have hdst := List.getElem?_eq_getElem (Nat.lt_of_lt_of_le hk hfit)
    exact ⟨_, hdst, hwords k _ src ((List.getElem?_take_of_lt hk).trans hdst) hsrc⟩

/-- The two result registers, in the wrong order. -/
theorem return_delivers_results_swapped :
    ∃ before, returnSequence ⟨Target.dlx.roles, Target.dlx.stackAlign⟩ .fast
        [(.f32, .reg (.ofBits 11)), (.i32, .reg (.ofBits 10))] =
          .ok (before ++ [⟨.jr, [.reg (.ofBits 31)]⟩]) ∧
      ∀ m : Machine, ∃ m', m.run before = some m' ∧ m'.regs (.ofBits 10) = m.regs (.ofBits 11) ∧
        m'.regs (.ofBits 11) = m.regs (.ofBits 10) ∧ m'.regs (.ofBits 31) = m.regs (.ofBits 31) := by
  obtain ⟨haccepted, hdelivers⟩ := return_delivers_results .fast
    [(.f32, .reg (.ofBits 11)), (.i32, .reg (.ofBits 10))] (.inr rfl)
  obtain ⟨is, hreturn⟩ := haccepted.mpr ⟨by decide, by
    simp [HeldArgument.Shaped, ValueType.isTwoWords, ValueType.bytes]⟩
  obtain ⟨-, before, rfl, hruns⟩ := hdelivers is hreturn
  refine ⟨before, hreturn, fun m => ?_⟩
  obtain ⟨m', hrun, -, hwords, hkept⟩ := hruns m
  obtain ⟨_, h₀, hlow⟩ := hwords 0 (.ofBits 11) rfl
  obtain ⟨_, h₁, hhigh⟩ := hwords 1 (.ofBits 10) rfl
  cases h₀
  cases h₁
  exact ⟨m', hrun, hlow, hhigh, hkept _ (by decide) (by decide)⟩

end Dlx
