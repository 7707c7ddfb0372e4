import Dlx.Proofs.Call.Allocation

/-!
# Once on the stack, always on the stack

When an argument has gone on the stack, all later ones follow it there. Plain values ask a flag;
aggregates do not, they ask only for free aggregate registers. What keeps them from going back to
registers is that the flag is never set while an aggregate register is free (`Spent`). A plain value
sets it with at most one argument register left, and the last argument register is none of the
aggregates'; an aggregate sets it after it has taken all of theirs.

Results:
* `keepsToStack_place`: what one argument does to the flag; `allKeepToStack_placeAll`: the run.
* `callLayout_monotonic`: no argument goes back to registers, and no value is split between a
  register and the stack.
-/
namespace Dlx

/-- How many registers a plain value takes. -/
def ValueType.words (t : ValueType) : Nat := if t.isTwoWords then 2 else 1

namespace Location

/-- Something of the argument is on the stack; an aggregate without registers is there even if it is
empty. -/
def hasStackPart : Location → Bool
  | stack _ _ => true
  | aggregate regs _ size => size ≠ 0 || regs.isEmpty
  | _ => false

/-- The whole argument is on the stack. -/
def isOnStack : Location → Bool
  | stack _ _ => true
  | aggregate regs _ _ => regs.isEmpty
  | _ => false

end Location

namespace CallState

/-! ## Plain values -/

section Values

variable {s : CallState} {list : List Reg} {t : ValueType}

/-- There are no registers for a value exactly if fewer are free than it takes. -/
theorem takeRegs?_eq_none_iff :
    s.takeRegs? list t = none ↔ (list.filter s.isFree).length < t.words := by
  unfold takeRegs? ValueType.words
  by_cases ht : t.isTwoWords
  · rw [if_pos ht, if_pos ht, Option.map_eq_none_iff, takePair?]
    split
    · next h => simp [h]
    · next h =>
      cases hfree : list.filter s.isFree with
      | nil => simp
      | cons lo rest =>
        cases rest with
        | nil => simp
        | cons hi rest => exact absurd hfree (h lo hi rest)
  · rw [if_neg ht, if_neg ht, Option.map_eq_none_iff, takeReg?, Option.map_eq_none_iff,
      List.find?_eq_none, Nat.lt_one_iff, List.length_eq_zero_iff, List.filter_eq_nil_iff]

/-- Registers for a value leave the stack alone, and a value of two words has a pair. -/
theorem takeRegs?_eq_some {placed : Location × CallState}
    (h : s.takeRegs? list t = some placed) :
    placed.1.hasStackPart = false ∧ placed.2.stackUsed = s.stackUsed ∧
      (t.isTwoWords = true → ∃ lo hi, placed.1 = .pair lo hi) := by
  unfold takeRegs? at h
  by_cases ht : t.isTwoWords
  · rw [if_pos ht, Option.map_eq_some_iff] at h
    obtain ⟨⟨⟨lo, hi⟩, s'⟩, hpair, rfl⟩ := h
    unfold takePair? at hpair
    split at hpair
    · cases hpair
      exact ⟨rfl, rfl, fun _ => ⟨_, _, rfl⟩⟩
    · cases hpair
  · rw [if_neg ht, Option.map_eq_some_iff] at h
    obtain ⟨⟨r, s'⟩, hreg, rfl⟩ := h
    obtain ⟨r', -, hr⟩ := Option.map_eq_some_iff.mp hreg
    cases hr
    exact ⟨rfl, rfl, fun h => absurd h ht⟩

/-- A plain value goes on the stack, and leaves the registers as they are, or it goes to registers,
which it does only while the stack is not in use and enough of them are free. -/
theorem placeValue_cases (s : CallState) (roles : RegisterRoles) (t : ValueType) :
    ((s.stackUsed = true ∨ (roles.arguments.filter s.isFree).length < t.words) ∧
      s.placeValue roles t = s.stackValue t) ∨
    (s.stackUsed = false ∧ t.words ≤ (roles.arguments.filter s.isFree).length ∧
      s.takeRegs? roles.arguments t = some (s.placeValue roles t)) := by
  unfold placeValue
  cases hstack : s.stackUsed with
  | true => exact .inl ⟨.inl rfl, rfl⟩
  | false =>
    cases hregs : s.takeRegs? roles.arguments t with
    | none => exact .inl ⟨.inr (takeRegs?_eq_none_iff.mp hregs), rfl⟩
    | some placed =>
      have hfree : ¬ (roles.arguments.filter s.isFree).length < t.words := by
        rw [← takeRegs?_eq_none_iff, hregs]
        exact Option.some_ne_none _
      exact .inr ⟨rfl, Nat.le_of_not_lt hfree, rfl⟩

end Values

/-! ## One argument -/

/-- Once the stack is in use, no aggregate register is free. -/
def Spent (roles : RegisterRoles) (s : CallState) : Prop :=
  s.stackUsed = true → roles.aggregates.length ≤ s.used.length

/-- What placing an argument does to the flag: it is set by an argument that has a part on the stack,
with the aggregate registers used up, and keeps an argument out of registers. -/
structure KeepsToStack (roles : RegisterRoles) (s : CallState) (loc : Location)
    (s' : CallState) : Prop where
  flag : s'.stackUsed = (s.stackUsed || loc.hasStackPart)
  spent : s'.Spent roles
  stays : s.stackUsed = true → loc.isOnStack = true

section Step

variable {roles : RegisterRoles} {s : CallState}

theorem keepsToStack_placeValue (t : ValueType) (hall : roles.arguments.Nodup)
    (hproper : roles.aggregates.length < roles.arguments.length)
    (hused : s.used <+: roles.arguments) (hspent : s.Spent roles) :
    KeepsToStack roles s (s.placeValue roles t).1 (s.placeValue roles t).2 := by
  rcases placeValue_cases s roles t with ⟨hstack, hplace⟩ | ⟨hfree, -, hregs⟩
  · rw [hplace]
    refine ⟨by simp [stackValue, takeStack, Location.hasStackPart], fun _ => ?_, fun _ => rfl⟩
    change roles.aggregates.length ≤ s.used.length
    rcases hstack with hstack | hfew
    · exact hspent hstack
    · -- At most the last argument register is free, and no aggregate uses that.
      have hwords : t.words ≤ 2 := by
        unfold ValueType.words
        split <;> decide
      rw [filter_isFree hall hused List.prefix_rfl, List.length_drop] at hfew
      omega
  · obtain ⟨hloc, hflag, -⟩ := takeRegs?_eq_some hregs
    have hflag' : (s.placeValue roles t).2.stackUsed = false := hflag.trans hfree
    exact ⟨by rw [hflag', hfree, hloc]; rfl,
      fun h => absurd (hflag'.symm.trans h) Bool.false_ne_true,
      fun h => absurd (hfree.symm.trans h) Bool.false_ne_true⟩

theorem keepsToStack_splitAggregate {list : List Reg} (size : Nat) (hlist : roles.aggregates = list)
    (hused : s.used <+: list) (hpos : 0 < s.used.length) (hflag : s.stackUsed = false) :
    KeepsToStack roles s (s.splitAggregate list (s.used.length - 1) size).1
      (s.splitAggregate list (s.used.length - 1) size).2 := by
  have hle := hused.length_le
  have hstays : ∀ {loc : Location}, s.stackUsed = true → loc.isOnStack = true := fun h =>
    absurd (hflag.symm.trans h) Bool.false_ne_true
  have hregs : ((list.drop (s.used.length - 1)).take (max ((size + 3) / 4) 1)).length =
      min (max ((size + 3) / 4) 1) (list.length - (s.used.length - 1)) := by
    rw [List.length_take, List.length_drop]
  unfold splitAggregate
  generalize (list.drop (s.used.length - 1)).take (max ((size + 3) / 4) 1) = regs at *
  have hne : regs.isEmpty = false := by
    cases regs with
    | nil => simp at hregs; omega
    | cons r regs => rfl
  dsimp only
  split
  · exact ⟨by simp [hflag, Location.hasStackPart, hne],
      fun h => absurd (hflag.symm.trans h) Bool.false_ne_true, hstays⟩
  · next hrest =>
    refine ⟨by simp [takeStack, Location.hasStackPart, hrest], fun _ => ?_, hstays⟩
    simp only [takeStack, hlist, List.length_append, List.length_drop]
    omega

theorem keepsToStack_placeAggregate (size align : Nat) (hall : roles.arguments.Nodup)
    (hlist : roles.aggregates <+: roles.arguments) (hused : s.used <+: roles.arguments)
    (hspent : s.Spent roles) :
    KeepsToStack roles s (s.placeAggregate roles size align).1
      (s.placeAggregate roles size align).2 := by
  obtain ⟨used, -, -, ⟨hfull, h⟩ | ⟨hlt, hagg, -, -, h⟩⟩ :=
    placeAggregate_cases size align hall hlist hused <;> rw [h]
  · exact ⟨by simp [stackAggregate, takeStack, Location.hasStackPart], fun _ => hfull, fun _ => rfl⟩
  · have hflag : s.stackUsed = false := by
      cases hstack : s.stackUsed with
      | false => rfl
      | true =>
        have := hspent hstack
        have := hagg.length_le
        omega
    have hsplit := keepsToStack_splitAggregate (s := { s with used := used }) size rfl hagg
      (by dsimp only; omega) hflag
    exact ⟨hsplit.flag, hsplit.spent, hsplit.stays⟩

theorem keepsToStack_place (a : Argument) (hall : roles.arguments.Nodup)
    (hlist : roles.aggregates <+: roles.arguments)
    (hproper : roles.aggregates.length < roles.arguments.length)
    (hused : s.used <+: roles.arguments) (hspent : s.Spent roles) :
    KeepsToStack roles s (s.place roles a).1 (s.place roles a).2 := by
  cases a with
  | value t => exact keepsToStack_placeValue t hall hproper hused hspent
  | aggregate size align => exact keepsToStack_placeAggregate size align hall hlist hused hspent

end Step

/-! ## All arguments -/

/-- What placing arguments one after the other does to the flag. -/
structure AllKeepToStack (roles : RegisterRoles) (s : CallState) (locs : List Location)
    (s' : CallState) : Prop where
  flag : s'.stackUsed = (s.stackUsed || locs.any Location.hasStackPart)
  spent : s'.Spent roles
  stays : s.stackUsed = true → ∀ loc ∈ locs, loc.isOnStack = true
  ordered : locs.Pairwise fun a b => a.hasStackPart = true → b.isOnStack = true

theorem KeepsToStack.cons {roles : RegisterRoles} {s s₁ s' : CallState} {loc : Location}
    {locs : List Location} (h : KeepsToStack roles s loc s₁)
    (hrest : AllKeepToStack roles s₁ locs s') : AllKeepToStack roles s (loc :: locs) s' where
  flag := by rw [hrest.flag, h.flag, List.any_cons, Bool.or_assoc]
  spent := hrest.spent
  stays hstack := by
    have hstack₁ : s₁.stackUsed = true := by rw [h.flag, hstack]; rfl
    exact List.forall_mem_cons.mpr ⟨h.stays hstack, hrest.stays hstack₁⟩
  ordered := by
    refine List.pairwise_cons.mpr ⟨fun later hlater hpart => ?_, hrest.ordered⟩
    have hstack₁ : s₁.stackUsed = true := by rw [h.flag, hpart, Bool.or_true]
    exact hrest.stays hstack₁ later hlater

theorem allKeepToStack_placeAll {roles : RegisterRoles} {s : CallState} (args : List Argument)
    (hall : roles.arguments.Nodup) (hlist : roles.aggregates <+: roles.arguments)
    (hproper : roles.aggregates.length < roles.arguments.length)
    (hused : s.used <+: roles.arguments) (hspent : s.Spent roles) :
    AllKeepToStack roles s (s.placeAll roles args).1 (s.placeAll roles args).2 := by
  induction args generalizing s with
  | nil => exact ⟨by simp [placeAll], hspent, by simp [placeAll], by simp [placeAll]⟩
  | cons a rest ih =>
    have hstep := keepsToStack_place a hall hlist hproper hused hspent
    exact hstep.cons (ih (placed_place a hall hlist hused).within hstep.spent)

end CallState

/-- The arguments of a call keep to the stack, and no value is split. Once an argument has a part on
the stack, every later one is on the stack as a whole. A plain value goes on the stack exactly if an
argument before it did or fewer argument registers are free than it takes. A value of two words has
a pair of registers or eight bytes of the stack, and then it takes no register. -/
theorem callLayout_monotonic (cc : Convention) (roles : RegisterRoles) (args : List Argument)
    (hcc : cc = .c ∨ cc = .fast) (hall : roles.arguments.Nodup)
    (hlist : roles.aggregates <+: roles.arguments)
    (hproper : roles.aggregates.length < roles.arguments.length) :
    ∃ layout, callLayout cc roles args = .ok layout ∧
      List.Forall₂ Location.Suits args layout.locations ∧
      (layout.locations.Pairwise fun a b => a.hasStackPart = true → b.isOnStack = true) ∧
      ∀ before t after, args = before ++ .value t :: after →
        ∃ earlier s loc s' later, layout.locations = earlier ++ loc :: later ∧
          CallState.empty.placeAll roles before = (earlier, s) ∧
          s.place roles (.value t) = (loc, s') ∧
          (loc.hasStackPart = true ↔ (∃ e ∈ earlier, e.hasStackPart = true) ∨
            (roles.arguments.filter s.isFree).length < t.words) ∧
          (t.isTwoWords = true → (∃ lo hi, loc = .pair lo hi) ∨
            ∃ offset, loc = .stack offset 8 ∧ s'.used = s.used) := by
  have hspent : CallState.empty.Spent roles := nofun
  have hplaced := CallState.allPlaced_placeAll args hall hlist (s := .empty) List.nil_prefix
  have hkeep := CallState.allKeepToStack_placeAll args hall hlist hproper List.nil_prefix hspent
  refine ⟨⟨_, _⟩, by rcases hcc with rfl | rfl <;> rfl, hplaced.suits, hkeep.ordered, ?_⟩
  rintro before t after rfl
  have hbefore :=
    CallState.allKeepToStack_placeAll before hall hlist hproper List.nil_prefix hspent
  generalize hrun : CallState.empty.placeAll roles before = run at *
  obtain ⟨earlier, s⟩ := run
  have hflag : s.stackUsed = true ↔ ∃ e ∈ earlier, e.hasStackPart = true := by
    rw [hbefore.flag]
    simp [CallState.empty]
  refine ⟨earlier, s, (s.placeValue roles t).1, (s.placeValue roles t).2,
    ((s.placeValue roles t).2.placeAll roles after).1, ?_, rfl, rfl, ?_, ?_⟩
  · rw [CallState.placeAll_append, hrun]
    rfl
  · rw [← hflag]
    rcases CallState.placeValue_cases s roles t with ⟨hstack, hplace⟩ | ⟨hunused, hfree, hregs⟩
    · rw [hplace]
      exact ⟨fun _ => hstack, fun _ => rfl⟩
    · rw [(CallState.takeRegs?_eq_some hregs).1, hunused]
      simp [Nat.not_lt.mpr hfree]
  · intro ht
    rcases CallState.placeValue_cases s roles t with ⟨-, hplace⟩ | ⟨-, -, hregs⟩
    · rw [hplace]
      exact .inr ⟨(s.takeStack 8 4).1, by simp [CallState.stackValue, ht], rfl⟩
    · exact .inl ((CallState.takeRegs?_eq_some hregs).2.2 ht)

/-- A value of two words finds one register free and leaves it, and neither a value nor an aggregate
after it goes back to that register. -/
theorem callLayout_monotonic_lastRegister :
    ∃ layout, callLayout .c .standard
        (List.replicate 7 (.value .i32) ++ [.value .f64, .value .i32, .aggregate 20 4]) = .ok layout ∧
      layout.locations.drop 7 = [.stack 0 8, .stack 8 4, .aggregate [] 12 20] ∧
      (layout.locations.Pairwise fun a b => a.hasStackPart = true → b.isOnStack = true) := by
  obtain ⟨layout, hlayout, -, hordered, -⟩ := callLayout_monotonic .c .standard
    (List.replicate 7 (.value .i32) ++ [.value .f64, .value .i32, .aggregate 20 4]) (.inl rfl)
    (by decide) (by decide) (by decide)
  cases hlayout
  exact ⟨_, rfl, by decide, hordered⟩

end Dlx
