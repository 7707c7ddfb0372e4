import Dlx.Proofs.Call.Allocation
import Mathlib.Tactic.IntervalCases

/-!
# Aggregates passed by value

An aggregate has a run of the aggregate registers for its first words, and the rest of it is on the
stack. The run is found from the end of the list: registers are passed over until as many are left
as the alignment divides. With four registers and an alignment that is a power of two, that is the
same as to start at a multiple of the alignment (`start_aligned`); an alignment of more than the four
registers leaves none.

Results:
* `placeAggregate_covers`: where one aggregate goes, in any roles.
* `callLayout_covers_aggregates`: with the standard roles, every aggregate is placed completely and
  at its alignment.
-/
namespace Dlx

/-- An aggregate has the run `regs` of the list of registers and `rest` more bytes of the stack. -/
structure Covers (list : List Reg) (size align : Nat) (pre regs post : List Reg)
    (offset rest : Nat) : Prop where
  run : list = pre ++ regs ++ post
  short : regs.length ≤ (size + 3) / 4
  rest_eq : rest = size - 4 * regs.length
  /-- A run that leaves something for the stack ends with the last register, and the stack was not in
  use. -/
  split : regs ≠ [] → rest ≠ 0 → post = [] ∧ offset = 0
  /-- The alignment divides the number of registers from the start of the run on. -/
  aligned : regs ≠ [] → (list.length - pre.length) % (max align 4 / 4) = 0

namespace CallState

variable {roles : RegisterRoles} {s : CallState}

theorem stackAggregate_covers (list : List Reg) (size align : Nat) :
    ∃ offset, (s.stackAggregate size).1 = .aggregate [] offset size ∧
      Covers list size align [] [] list offset size := by
  refine ⟨(s.takeStack size 4).1, rfl, ?_⟩
  exact ⟨rfl, Nat.zero_le _, rfl, fun h => absurd rfl h, fun h => absurd rfl h⟩

theorem splitAggregate_covers {list : List Reg} {index size align : Nat} (hsize : 0 < size)
    (hindex : index < list.length) (haligned : (list.length - index) % (max align 4 / 4) = 0)
    (hroom : s.stackSize ≠ 0 → size ≤ 4 * (list.length - index)) :
    ∃ pre regs post offset rest,
      (s.splitAggregate list index size).1 = .aggregate regs offset rest ∧
        Covers list size align pre regs post offset rest := by
  have hlen : ((list.drop index).take (max ((size + 3) / 4) 1)).length =
      min (max ((size + 3) / 4) 1) (list.length - index) := by
    rw [List.length_take, List.length_drop]
  have hrun : list = list.take index ++ (list.drop index).take (max ((size + 3) / 4) 1) ++
      (list.drop index).drop (max ((size + 3) / 4) 1) := by
    rw [List.append_assoc, List.take_append_drop, List.take_append_drop]
  have hpre : (list.take index).length = index := by
    rw [List.length_take]
    omega
  have hpost : ((list.drop index).drop (max ((size + 3) / 4) 1)).length =
      list.length - index - max ((size + 3) / 4) 1 := by
    rw [List.length_drop, List.length_drop]
  unfold splitAggregate
  generalize list.take index = pre at *
  generalize (list.drop index).take (max ((size + 3) / 4) 1) = regs at *
  generalize (list.drop index).drop (max ((size + 3) / 4) 1) = post at *
  dsimp only
  split
  · next hrest =>
    refine ⟨pre, regs, post, s.stackSize, 0, rfl, hrun, by omega, hrest.symm,
      fun _ h => absurd rfl h, fun _ => ?_⟩
    rwa [hpre]
  · next hrest =>
    refine ⟨pre, regs, post, alignUp s.stackSize 4, _, rfl, hrun, by omega, rfl, fun _ _ => ?_,
      fun _ => ?_⟩
    · -- All registers from the start on are taken and do not hold the aggregate.
      have hzero : s.stackSize = 0 := by
        by_contra hne
        have := hroom hne
        omega
      refine ⟨List.length_eq_zero_iff.mp (by omega), ?_⟩
      rw [hzero]
      rfl
    · rwa [hpre]

theorem placeAggregate_covers {size : Nat} (align : Nat) (hsize : 0 < size)
    (hall : roles.arguments.Nodup) (hlist : roles.aggregates <+: roles.arguments)
    (hused : s.used <+: roles.arguments) :
    ∃ pre regs post offset rest,
      (s.placeAggregate roles size align).1 = .aggregate regs offset rest ∧
        Covers roles.aggregates size align pre regs post offset rest := by
  obtain ⟨used, -, -, ⟨-, h⟩ | ⟨hlt, hagg, haligned, hroom, h⟩⟩ :=
    placeAggregate_cases size align hall hlist hused <;> rw [h]
  · obtain ⟨offset, hloc, hcovers⟩ := stackAggregate_covers roles.aggregates size align
    exact ⟨_, _, _, offset, _, hloc, hcovers⟩
  · have hle := hagg.length_le
    exact splitAggregate_covers hsize (by omega) haligned hroom

end CallState

/-! ## Alignments that are powers of two -/

theorem alignment_dvd_four {align : Nat} (h : align = 0 ∨ align.isPowerOfTwo)
    (hle : max align 4 / 4 ≤ 4) : max align 4 / 4 ∣ 4 := by
  rcases h with rfl | ⟨k, rfl⟩
  · decide
  · have hk : k ≤ 4 := by
      by_contra hk
      have := Nat.pow_le_pow_right (show 0 < 2 by decide) (show 5 ≤ k by omega)
      omega
    interval_cases k <;> decide

/-- Among four registers, a run with a multiple of the alignment from its start on starts at a
multiple of the alignment. -/
theorem start_aligned {align start : Nat} (h : align = 0 ∨ align.isPowerOfTwo) (hstart : start < 4)
    (hmod : (4 - start) % (max align 4 / 4) = 0) : start % (max align 4 / 4) = 0 := by
  have hdvd : max align 4 / 4 ∣ 4 - start := Nat.dvd_of_mod_eq_zero hmod
  have hle : max align 4 / 4 ≤ 4 - start := Nat.le_of_dvd (by omega) hdvd
  have hfour := alignment_dvd_four h (by omega)
  rw [show start = 4 - (4 - start) by omega]
  exact Nat.mod_eq_zero_of_dvd (Nat.dvd_sub hfour hdvd)

/-! ## Whole calls -/

/-- Every aggregate of a call is placed completely and at its alignment. Its registers are a run of
the aggregate registers, no more than it has words, that starts at a multiple of the alignment. The
registers and the bytes on the stack hold all of it, and no more than that if some of it is on the
stack. If there are both, the run goes up to the last register and the stack starts with the rest. -/
theorem callLayout_covers_aggregates (cc : Convention) (args : List Argument)
    (hcc : cc = .c ∨ cc = .fast) :
    ∃ layout, callLayout cc .standard args = .ok layout ∧
      layout.locations.length = args.length ∧
      ∀ before size align after, args = before ++ .aggregate size align :: after → 0 < size →
        (align = 0 ∨ align.isPowerOfTwo) →
        ∃ pre regs post offset rest,
          layout.locations[before.length]? = some (.aggregate regs offset rest) ∧
          RegisterRoles.standard.aggregates = pre ++ regs ++ post ∧
          regs.length ≤ (size + 3) / 4 ∧
          size ≤ 4 * regs.length + rest ∧
          (0 < rest → 4 * regs.length + rest = size) ∧
          (regs = [] → rest = size) ∧
          (regs ≠ [] → 0 < rest → post = [] ∧ offset = 0) ∧
          (regs ≠ [] → pre.length % (max align 4 / 4) = 0) := by
  have hall : RegisterRoles.standard.arguments.Nodup := by decide
  have hlist : RegisterRoles.standard.aggregates <+: RegisterRoles.standard.arguments := by decide
  have hplaced := fun xs =>
    CallState.allPlaced_placeAll (s := .empty) xs hall hlist List.nil_prefix
  refine ⟨⟨_, _⟩, by rcases hcc with rfl | rfl <;> rfl, (hplaced args).suits.length_eq.symm, ?_⟩
  rintro before size align after rfl hsize halign
  obtain ⟨pre, regs, post, offset, rest, hloc, hcovers⟩ :=
    CallState.placeAggregate_covers align hsize hall hlist (hplaced before).within
  have hrest := hcovers.rest_eq
  refine ⟨pre, regs, post, offset, rest, ?_, hcovers.run, hcovers.short, by omega, by omega, ?_, ?_,
    ?_⟩
  · rw [CallState.placeAll_append, List.getElem?_append_right
      (Nat.le_of_eq (hplaced before).suits.length_eq.symm), (hplaced before).suits.length_eq,
      Nat.sub_self]
    exact congrArg some hloc
  · rintro rfl
    exact hrest
  · intro hregs hpos
    exact hcovers.split hregs (by omega)
  · intro hregs
    have hlen := congrArg List.length hcovers.run
    have hpos := List.length_pos_iff.mpr hregs
    rw [List.length_append, List.length_append] at hlen
    have hfour : RegisterRoles.standard.aggregates.length = 4 := rfl
    exact start_aligned halign (by omega) (hfour ▸ hcovers.aligned hregs)

/-- An aggregate aligned to two words passes over one register, has the last two, and starts the
stack with what is left of it. -/
theorem callLayout_covers_aggregates_twoWords :
    ∃ layout, callLayout .c .standard [.value .i32, .aggregate 24 8] = .ok layout ∧
      ∃ pre post, layout.locations[1]? =
          some (.aggregate [.ofBits 12, .ofBits 13] 0 16) ∧
        RegisterRoles.standard.aggregates = pre ++ [.ofBits 12, .ofBits 13] ++ post ∧
        post = [] ∧ pre.length % 2 = 0 := by
  obtain ⟨layout, hlayout, -, h⟩ :=
    callLayout_covers_aggregates .c [.value .i32, .aggregate 24 8] (.inl rfl)
  cases hlayout
  obtain ⟨pre, regs, post, offset, rest, hloc, hrun, -, -, -, -, hsplit, haligned⟩ :=
    h [.value .i32] 24 8 [] rfl (by decide) (.inr ⟨3, rfl⟩)
  cases hloc
  exact ⟨_, rfl, pre, post, rfl, hrun, (hsplit (by decide) (by decide)).1, haligned (by decide)⟩

end Dlx
