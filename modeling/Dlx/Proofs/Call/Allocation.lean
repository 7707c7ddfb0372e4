import Dlx.Call.Convention
import Mathlib.Data.List.Nodup

/-!
# Arguments never collide

Plain values, pairs and aggregates draw on one set of registers in three ways, and none of them
asks whether what it marks as used was free. What keeps them apart is that the registers given out
are always a prefix of the argument registers, in order, so the free registers of any prefix of them
are what is left when the used ones are dropped (`filter_isFree`).

`Placed` says what placing one argument does to the registers and to the stack; `placed_place` is
the step and `allPlaced_placeAll` the run. The ways in which an aggregate can go are told apart once,
in `placeAggregate_cases`.

Results:
* `callLayout_disjoint`: in every layout the registers are distinct argument registers in ascending
  position, and the stack parts follow each other without overlap.
-/
namespace Dlx

namespace Location

/-- The registers of a location, in the order of the words they carry. -/
def regs : Location → List Reg
  | reg r => [r]
  | pair lo hi => [lo, hi]
  | stack _ _ => []
  | aggregate regs _ _ => regs

/-- Where the part on the stack starts. It means nothing if there is no such part. -/
def stackOffset : Location → Nat
  | stack offset _ => offset
  | aggregate _ offset _ => offset
  | _ => 0

/-- The size of the part on the stack. -/
def stackSize : Location → Nat
  | stack _ size => size
  | aggregate _ _ size => size
  | _ => 0

/-- The location has the form that the argument asks for, and room for all of it. -/
def Suits : Argument → Location → Prop
  | .value t, reg _ => t.isTwoWords = false
  | .value t, pair _ _ => t.isTwoWords = true
  | .value t, stack _ size => size = if t.isTwoWords then 8 else 4
  | .aggregate size _, aggregate regs _ rest => rest = size - 4 * regs.length
  | _, _ => False

/-- The stack part of one location ends before that of the other starts. -/
def Before (a b : Location) : Prop :=
  a.stackSize ≠ 0 → b.stackSize ≠ 0 → a.stackOffset + a.stackSize ≤ b.stackOffset

end Location

/-- The size of an argument on the stack, rounded up to words. -/
def Argument.roundedSize : Argument → Nat
  | .value t => alignUp t.bytes 4
  | .aggregate size _ => alignUp size 4

/-- The rounded sizes of all arguments together. -/
def roundedSizes : List Argument → Nat
  | [] => 0
  | a :: rest => a.roundedSize + roundedSizes rest

namespace CallState

section Registers

variable {all list : List Reg} {s : CallState}

/-- The free registers of a prefix of `all` are those behind the used ones. -/
theorem filter_isFree (hall : all.Nodup) (hused : s.used <+: all) (hlist : list <+: all) :
    list.filter s.isFree = list.drop s.used.length := by
  rcases Nat.le_total list.length s.used.length with h | h
  · have hsub : list <+: s.used := List.prefix_of_prefix_length_le hlist hused h
    rw [List.drop_eq_nil_of_le h, List.filter_eq_nil_iff]
    intro r hr
    simp [isFree, hsub.subset hr]
  · obtain ⟨rest, rfl⟩ := List.prefix_of_prefix_length_le hused hlist h
    have hnodup : (s.used ++ rest).Nodup := hlist.sublist.nodup hall
    have hfree : ∀ r ∈ rest, s.isFree r = true := by
      intro r hr
      have : r ∉ s.used := fun hmem => (List.disjoint_of_nodup_append hnodup) hmem hr
      simp [isFree, this]
    rw [List.filter_append, List.filter_eq_self.mpr hfree, List.drop_left,
      List.filter_eq_nil_iff.mpr (by simp +contextual [isFree]), List.nil_append]

/-- Registers taken from behind the used ones extend the prefix. -/
theorem used_append_within {taken : List Reg} (hused : s.used <+: all) (hlist : list <+: all)
    (htaken : taken <+: list.drop s.used.length) : s.used ++ taken <+: all := by
  rcases Nat.le_total list.length s.used.length with h | h
  · rw [List.drop_eq_nil_of_le h, List.prefix_nil] at htaken
    rwa [htaken, List.append_nil]
  · obtain ⟨rest, rfl⟩ := List.prefix_of_prefix_length_le hused hlist h
    rw [List.drop_left] at htaken
    exact ((List.prefix_append_right_inj s.used).mpr htaken).trans hlist

theorem takeReg?_eq (hall : all.Nodup) (hused : s.used <+: all) (hlist : list <+: all) :
    s.takeReg? list =
      (list.drop s.used.length).head?.map fun r => (r, { s with used := s.used ++ [r] }) := by
  rw [takeReg?, ← List.head?_filter, filter_isFree hall hused hlist]

/-- Passing over registers takes the next ones, as far as there are so many, and ends with the last
one taken. -/
theorem skipRegs_eq (hall : all.Nodup) (hlist : list <+: all) (count : Nat) (last : Reg)
    (hused : s.used <+: all) (hlast : s.used.getLast? = some last) :
    s.skipRegs list last count =
      (if count ≤ (list.drop s.used.length).length then
          (s.used ++ (list.drop s.used.length).take count).getLast?
        else none,
        { s with used := s.used ++ (list.drop s.used.length).take count }) := by
  induction count generalizing s last with
  | zero => simp [skipRegs, hlast]
  | succ count ih =>
    cases hrest : list.drop s.used.length with
    | nil => simp [skipRegs, takeReg?_eq hall hused hlist, hrest]
    | cons r rest =>
      have hstep : s.skipRegs list last (count + 1) =
          ({ s with used := s.used ++ [r] } : CallState).skipRegs list r count := by
        simp [skipRegs, takeReg?_eq hall hused hlist, hrest]
      have hmore : s.used ++ [r] <+: all :=
        used_append_within hused hlist (hrest ▸ ⟨rest, rfl⟩)
      have hdrop : list.drop (s.used ++ [r]).length = rest := by
        rw [List.length_append, List.length_singleton, ← List.drop_drop, hrest]
        rfl
      rw [hstep, ih (s := { s with used := s.used ++ [r] }) r hmore (by simp), hdrop]
      simp

/-- A register that ends a prefix of a list stands where the prefix ends. -/
theorem idxOf_of_getLast? {used : List Reg} {r : Reg} (hlist : list.Nodup) (hused : used <+: list)
    (hlast : used.getLast? = some r) : list.idxOf r = used.length - 1 := by
  rw [List.getLast?_eq_getElem?, List.getElem?_eq_some_iff] at hlast
  obtain ⟨hlt, rfl⟩ := hlast
  rw [hused.getElem hlt]
  exact hlist.idxOf_getElem _ _

end Registers

/-! ## Placing one argument -/

/-- What placing an argument does: it takes the next registers, of which it uses the last ones, and
the next words of the stack. -/
structure Placed (roles : RegisterRoles) (s : CallState) (a : Argument) (loc : Location)
    (s' : CallState) : Prop where
  suits : loc.Suits a
  extends_used : s.used <+: s'.used
  within : s'.used <+: roles.arguments
  regs : ∃ j, s.used.length ≤ j ∧ loc.regs = s'.used.drop j
  grows : s.stackSize ≤ s'.stackSize
  starts : loc.stackSize ≠ 0 → loc.stackOffset % 4 = 0 ∧ s.stackSize ≤ loc.stackOffset
  ends : loc.stackOffset + loc.stackSize ≤ s'.stackSize
  bounded : alignUp s'.stackSize 4 ≤ alignUp s.stackSize 4 + a.roundedSize

section Step

variable {roles : RegisterRoles} {s s₁ : CallState}

/-- A whole argument on the stack, after registers may have been passed over. -/
theorem placed_takeStack {a : Argument} {loc : Location} {size : Nat}
    (hext : s.used <+: s₁.used) (hused : s₁.used <+: roles.arguments)
    (hstack : s₁.stackSize = s.stackSize) (hsuits : loc.Suits a) (hregs : loc.regs = [])
    (hoffset : loc.stackOffset = (s₁.takeStack size 4).1) (hsize : loc.stackSize = size)
    (hround : alignUp size 4 ≤ a.roundedSize) :
    Placed roles s a loc (s₁.takeStack size 4).2 where
  suits := hsuits
  extends_used := hext
  within := hused
  regs := ⟨s₁.used.length, hext.length_le, by simp [hregs, takeStack]⟩
  grows := by
    simp only [takeStack, alignUp, ← hstack]
    omega
  starts _ := by
    rw [hoffset]
    simp only [takeStack, alignUp, ← hstack]
    omega
  ends := by rw [hoffset, hsize]; exact Nat.le_refl _
  bounded := by
    simp only [takeStack, alignUp, ← hstack] at hround ⊢
    omega

theorem placed_stackValue (t : ValueType) (hused : s.used <+: roles.arguments) :
    Placed roles s (.value t) (s.stackValue t).1 (s.stackValue t).2 := by
  refine placed_takeStack List.prefix_rfl hused rfl rfl rfl rfl rfl ?_
  cases t <;> decide

theorem placed_stackAggregate (size align : Nat) (hext : s.used <+: s₁.used)
    (hused : s₁.used <+: roles.arguments) (hstack : s₁.stackSize = s.stackSize) :
    Placed roles s (.aggregate size align) (s₁.stackAggregate size).1
      (s₁.stackAggregate size).2 :=
  placed_takeStack hext hused hstack (by simp [stackAggregate, Location.Suits]) rfl rfl rfl
    (Nat.le_refl _)

/-- An argument in registers only: the next `taken` are all it takes. -/
theorem placed_taken {a : Argument} {loc : Location} (taken : List Reg)
    (hwithin : s.used ++ taken <+: roles.arguments) (hsuits : loc.Suits a)
    (hregs : loc.regs = taken) (hoffset : loc.stackOffset = 0) (hsize : loc.stackSize = 0) :
    Placed roles s a loc { s with used := s.used ++ taken } where
  suits := hsuits
  extends_used := List.prefix_append _ _
  within := hwithin
  regs := ⟨s.used.length, Nat.le_refl _, by simp [hregs]⟩
  grows := Nat.le_refl _
  starts h := absurd hsize h
  ends := by simp [hoffset, hsize]
  bounded := Nat.le_add_right _ _

theorem placed_placeValue (t : ValueType) (hall : roles.arguments.Nodup)
    (hused : s.used <+: roles.arguments) :
    Placed roles s (.value t) (s.placeValue roles t).1 (s.placeValue roles t).2 := by
  have hfree := filter_isFree hall hused List.prefix_rfl
  have hnext := @used_append_within roles.arguments roles.arguments s
  unfold placeValue
  split
  · exact placed_stackValue t hused
  · unfold takeRegs?
    by_cases ht : t.isTwoWords
    · rw [if_pos ht, takePair?, hfree]
      split
      · next lo hi rest hdrop =>
        exact placed_taken [lo, hi]
          (hnext hused List.prefix_rfl (hdrop ▸ ⟨rest, rfl⟩)) ht rfl rfl rfl
      · exact placed_stackValue t hused
    · rw [if_neg ht, takeReg?_eq hall hused List.prefix_rfl]
      cases hdrop : roles.arguments.drop s.used.length with
      | nil => exact placed_stackValue t hused
      | cons r rest =>
        exact placed_taken [r] (hnext hused List.prefix_rfl (hdrop ▸ ⟨rest, rfl⟩))
          (eq_false_of_ne_true ht) rfl rfl rfl

/-- The registers from the last used one on that a split aggregate takes. -/
theorem used_splitAggregate {list : List Reg} (size : Nat) (hused : s₁.used <+: list)
    (hpos : 0 < s₁.used.length) :
    let regs := (list.drop (s₁.used.length - 1)).take (max ((size + 3) / 4) 1)
    s₁.used ++ regs.drop 1 <+: list ∧
      (s₁.used ++ regs.drop 1).drop (s₁.used.length - 1) = regs := by
  obtain ⟨k, hk⟩ : ∃ k, s₁.used.length = k + 1 := ⟨_, (Nat.succ_pred_eq_of_pos hpos).symm⟩
  obtain ⟨n, hn⟩ : ∃ n, max ((size + 3) / 4) 1 = n + 1 :=
    ⟨_, (Nat.succ_pred_eq_of_pos (by omega)).symm⟩
  have htake : s₁.used = list.take (k + 1) := hk ▸ List.prefix_iff_eq_take.mp hused
  have hsum : s₁.used ++ ((list.drop k).take (n + 1)).drop 1 = list.take (k + (n + 1)) := by
    rw [List.drop_take, List.drop_drop, htake, Nat.add_sub_cancel, ← List.take_add]
    congr 1
    omega
  simp only [hk, hn, Nat.add_sub_cancel, hsum]
  refine ⟨List.take_prefix _ _, ?_⟩
  rw [List.drop_take, Nat.add_sub_cancel_left]

theorem placed_splitAggregate {list : List Reg} (size align : Nat) (hlist : list <+: roles.arguments)
    (hused : s₁.used <+: list) (hext : s.used <+: s₁.used) (hlen : s.used.length < s₁.used.length)
    (hstack : s₁.stackSize = s.stackSize) :
    Placed roles s (.aggregate size align)
      (s₁.splitAggregate list (s₁.used.length - 1) size).1
      (s₁.splitAggregate list (s₁.used.length - 1) size).2 := by
  obtain ⟨hwithin, hregs⟩ := used_splitAggregate size hused (by omega)
  unfold splitAggregate
  simp only at hwithin hregs ⊢
  generalize (list.drop (s₁.used.length - 1)).take (max ((size + 3) / 4) 1) = regs at *
  have hext' : s.used <+: s₁.used ++ regs.drop 1 := hext.trans (List.prefix_append _ _)
  have hj : s.used.length ≤ s₁.used.length - 1 := by omega
  split
  · next hrest =>
    refine ⟨hrest.symm, hext', hwithin.trans hlist, ⟨_, hj, hregs.symm⟩, Nat.le_of_eq hstack.symm,
      fun h => absurd rfl h, Nat.le_refl _, ?_⟩
    simp [hstack]
  · refine ⟨rfl, hext', hwithin.trans hlist, ⟨_, hj, hregs.symm⟩, ?_, fun _ => ?_, Nat.le_refl _, ?_⟩ <;>
      simp only [takeStack, alignUp, Argument.roundedSize, Location.stackOffset, ← hstack] <;>
      omega

/-- An aggregate takes registers up to some point. Either none is left then, and it goes on the stack
as a whole, or it starts with the last one taken: as many are left from there as the alignment
divides, and enough if the stack is in use. -/
theorem placeAggregate_cases (size align : Nat) (hall : roles.arguments.Nodup)
    (hlist : roles.aggregates <+: roles.arguments) (hused : s.used <+: roles.arguments) :
    ∃ used, s.used <+: used ∧ used <+: roles.arguments ∧
      ((roles.aggregates.length ≤ used.length ∧ s.placeAggregate roles size align =
          ({ s with used := used } : CallState).stackAggregate size) ∨
        (s.used.length < used.length ∧ used <+: roles.aggregates ∧
          (roles.aggregates.length - (used.length - 1)) % (max align 4 / 4) = 0 ∧
          (s.stackSize ≠ 0 → size ≤ 4 * (roles.aggregates.length - (used.length - 1))) ∧
          s.placeAggregate roles size align =
            ({ s with used := used } : CallState).splitAggregate roles.aggregates
              (used.length - 1) size)) := by
  unfold placeAggregate
  simp only [takeReg?_eq hall hused hlist]
  cases hdrop : roles.aggregates.drop s.used.length with
  | nil => exact ⟨s.used, List.prefix_rfl, hused, .inl ⟨List.drop_eq_nil_iff.mp hdrop, rfl⟩⟩
  | cons first rest =>
    have hlen : roles.aggregates.length = s.used.length + (rest.length + 1) := by
      have := congrArg List.length hdrop
      rw [List.length_drop, List.length_cons] at this
      omega
    have hagg : s.used ++ [first] <+: roles.aggregates :=
      used_append_within (List.prefix_of_prefix_length_le hused hlist (by omega))
        List.prefix_rfl (hdrop ▸ ⟨rest, rfl⟩)
    have hnodup : roles.aggregates.Nodup := hlist.sublist.nodup hall
    have hindex : roles.aggregates.idxOf first = s.used.length := by
      rw [idxOf_of_getLast? hnodup hagg (by simp)]
      simp
    have hrest : roles.aggregates.drop (s.used ++ [first]).length = rest := by
      rw [List.length_append, List.length_singleton, ← List.drop_drop, hdrop]
      rfl
    simp only [List.head?_cons, Option.map_some, hindex]
    rw [skipRegs_eq (s := { s with used := s.used ++ [first] }) hall hlist _ first
      (hagg.trans hlist) (by simp)]
    simp only [hrest]
    -- From here on the registers taken are `s.used ++ [first] ++ rest.take waste`.
    generalize hwaste : (roles.aggregates.length - s.used.length) % (max align 4 / 4) = waste
    have hagg' : s.used ++ [first] ++ rest.take waste <+: roles.aggregates :=
      used_append_within (s := { s with used := s.used ++ [first] }) hagg List.prefix_rfl
        (hrest ▸ List.take_prefix _ _)
    have hext : s.used <+: s.used ++ [first] ++ rest.take waste := by simp
    by_cases hfit : waste ≤ rest.length
    · rw [if_pos hfit]
      have hused' : (s.used ++ [first] ++ rest.take waste).length = s.used.length + 1 + waste := by
        rw [List.length_append, List.length_append, List.length_take, Nat.min_eq_left hfit]
        rfl
      cases hlast : (s.used ++ [first] ++ rest.take waste).getLast? with
      | none => simp at hlast
      | some r =>
        simp only [idxOf_of_getLast? hnodup hagg' hlast]
        generalize s.used ++ [first] ++ rest.take waste = used at *
        split
        · refine ⟨_, hext.trans (List.prefix_append _ _), ?_, .inl ⟨?_, rfl⟩⟩ <;>
            rw [filter_isFree (s := { s with used := used }) hall (hagg'.trans hlist) hlist]
          · exact used_append_within (s := { s with used := used }) (hagg'.trans hlist) hlist
              List.prefix_rfl
          · simp only [List.length_append, List.length_drop]
            omega
        · next hroom =>
          refine ⟨used, hext, hagg'.trans hlist, .inr ⟨by omega, hagg', ?_, by omega, rfl⟩⟩
          rw [show roles.aggregates.length - (used.length - 1) =
            roles.aggregates.length - s.used.length - waste by omega, ← hwaste]
          exact Nat.mod_eq_zero_of_dvd (Nat.dvd_sub_mod _)
    · rw [if_neg hfit]
      refine ⟨_, hext, hagg'.trans hlist, .inl ⟨?_, rfl⟩⟩
      rw [List.take_of_length_le (by omega)]
      simp only [List.length_append, List.length_singleton]
      omega

theorem placed_placeAggregate (size align : Nat) (hall : roles.arguments.Nodup)
    (hlist : roles.aggregates <+: roles.arguments) (hused : s.used <+: roles.arguments) :
    Placed roles s (.aggregate size align) (s.placeAggregate roles size align).1
      (s.placeAggregate roles size align).2 := by
  obtain ⟨used, hext, hwithin, ⟨-, h⟩ | ⟨hlt, hagg, -, -, h⟩⟩ :=
    placeAggregate_cases size align hall hlist hused <;> rw [h]
  · exact placed_stackAggregate size align hext hwithin rfl
  · exact placed_splitAggregate size align hlist hagg hext hlt rfl

theorem placed_place (a : Argument) (hall : roles.arguments.Nodup)
    (hlist : roles.aggregates <+: roles.arguments) (hused : s.used <+: roles.arguments) :
    Placed roles s a (s.place roles a).1 (s.place roles a).2 := by
  cases a with
  | value t => exact placed_placeValue t hall hused
  | aggregate size align => exact placed_placeAggregate size align hall hlist hused

end Step

/-! ## Placing all arguments -/

/-- What placing arguments one after the other does. -/
structure AllPlaced (roles : RegisterRoles) (s : CallState) (args : List Argument)
    (locs : List Location) (s' : CallState) : Prop where
  suits : List.Forall₂ Location.Suits args locs
  extends_used : s.used <+: s'.used
  within : s'.used <+: roles.arguments
  regs : (locs.flatMap Location.regs).Sublist (s'.used.drop s.used.length)
  grows : s.stackSize ≤ s'.stackSize
  starts : ∀ loc ∈ locs, loc.stackSize ≠ 0 → loc.stackOffset % 4 = 0 ∧ s.stackSize ≤ loc.stackOffset
  ends : ∀ loc ∈ locs, loc.stackOffset + loc.stackSize ≤ s'.stackSize
  ordered : locs.Pairwise Location.Before
  bounded : alignUp s'.stackSize 4 ≤ alignUp s.stackSize 4 + roundedSizes args

theorem Placed.cons {roles : RegisterRoles} {s s₁ s' : CallState} {a : Argument} {loc : Location}
    {args : List Argument} {locs : List Location} (h : Placed roles s a loc s₁)
    (hrest : AllPlaced roles s₁ args locs s') :
    AllPlaced roles s (a :: args) (loc :: locs) s' where
  suits := .cons h.suits hrest.suits
  extends_used := h.extends_used.trans hrest.extends_used
  within := hrest.within
  regs := by
    obtain ⟨j, hj, hregs⟩ := h.regs
    obtain ⟨more, hmore⟩ := hrest.extends_used
    have hrest := hrest.regs
    rw [← hmore, List.drop_left] at hrest
    rw [List.flatMap_cons, hregs, ← hmore]
    rw [List.drop_append_of_le_length h.extends_used.length_le]
    refine List.Sublist.append ?_ hrest
    rw [← Nat.add_sub_cancel' hj, ← List.drop_drop]
    exact List.drop_sublist _ _
  grows := Nat.le_trans h.grows hrest.grows
  starts := by
    intro l hl hsize
    rcases List.mem_cons.mp hl with rfl | hl
    · exact h.starts hsize
    · obtain ⟨hmod, hlo⟩ := hrest.starts l hl hsize
      exact ⟨hmod, Nat.le_trans h.grows hlo⟩
  ends := by
    intro l hl
    rcases List.mem_cons.mp hl with rfl | hl
    · exact Nat.le_trans h.ends hrest.grows
    · exact hrest.ends l hl
  ordered := by
    refine List.pairwise_cons.mpr ⟨?_, hrest.ordered⟩
    intro l hl _ hsize
    exact Nat.le_trans h.ends (hrest.starts l hl hsize).2
  bounded := by
    have := h.bounded
    have := hrest.bounded
    simp only [roundedSizes]
    omega

theorem allPlaced_placeAll {roles : RegisterRoles} {s : CallState} (args : List Argument)
    (hall : roles.arguments.Nodup) (hlist : roles.aggregates <+: roles.arguments)
    (hused : s.used <+: roles.arguments) :
    AllPlaced roles s args (s.placeAll roles args).1 (s.placeAll roles args).2 := by
  induction args generalizing s with
  | nil => exact ⟨.nil, List.prefix_rfl, hused, by simp [placeAll], Nat.le_refl _, by simp [placeAll],
      by simp [placeAll], by simp [placeAll], Nat.le_refl _⟩
  | cons a rest ih =>
    have hstep := placed_place a hall hlist hused
    exact hstep.cons (ih hstep.within)

/-- Later arguments are placed from the state that the earlier ones leave. -/
theorem placeAll_append (s : CallState) (roles : RegisterRoles) (xs ys : List Argument) :
    s.placeAll roles (xs ++ ys) =
      ((s.placeAll roles xs).1 ++ ((s.placeAll roles xs).2.placeAll roles ys).1,
        ((s.placeAll roles xs).2.placeAll roles ys).2) := by
  induction xs generalizing s with
  | nil => rfl
  | cons a xs ih => simp [placeAll, ih]

end CallState

/-- Every list of arguments has a layout, and it places them one after the other. -/
theorem allPlaced_callLayout {cc : Convention} (roles : RegisterRoles) (args : List Argument)
    (hcc : cc = .c ∨ cc = .fast) (hall : roles.arguments.Nodup)
    (hlist : roles.aggregates <+: roles.arguments) :
    ∃ layout s, callLayout cc roles args = .ok layout ∧ s.stackSize = layout.stackSize ∧
      CallState.AllPlaced roles .empty args layout.locations s := by
  refine ⟨⟨_, _⟩, _, ?_, rfl, CallState.allPlaced_placeAll args hall hlist List.nil_prefix⟩
  rcases hcc with rfl | rfl <;> rfl

/-- In a list of distinct elements each stands behind those before it. -/
theorem pairwise_idxOf_of_sublist {regs all : List Reg} (hall : all.Nodup) (hregs : regs.Sublist all) :
    regs.Pairwise fun a b => all.idxOf a < all.idxOf b := by
  refine List.Pairwise.sublist hregs (List.pairwise_iff_getElem.mpr ?_)
  intro i j hi hj hij
  rwa [hall.idxOf_getElem, hall.idxOf_getElem]

/-- The arguments of a call never collide. The registers of all locations, in the order of the
arguments, are argument registers in ascending position, so they are distinct. The stack parts start
at words, follow each other in the order of the arguments, and end within the stack area, which is
no larger than the arguments' sizes rounded up to words. -/
theorem callLayout_disjoint (cc : Convention) (roles : RegisterRoles) (args : List Argument)
    (hcc : cc = .c ∨ cc = .fast) (hall : roles.arguments.Nodup)
    (hlist : roles.aggregates <+: roles.arguments) :
    ∃ layout, callLayout cc roles args = .ok layout ∧
      List.Forall₂ Location.Suits args layout.locations ∧
      (∀ r ∈ layout.locations.flatMap Location.regs, r ∈ roles.arguments) ∧
      (layout.locations.flatMap Location.regs).Pairwise
        (fun a b => a ≠ b ∧ roles.arguments.idxOf a < roles.arguments.idxOf b) ∧
      (∀ loc ∈ layout.locations, loc.stackSize ≠ 0 →
        loc.stackOffset % 4 = 0 ∧ loc.stackOffset + loc.stackSize ≤ layout.stackSize) ∧
      (layout.locations.Pairwise fun a b => a.stackSize ≠ 0 → b.stackSize ≠ 0 →
        a.stackOffset + a.stackSize ≤ b.stackOffset) ∧
      layout.stackSize ≤ roundedSizes args := by
  obtain ⟨layout, s, hlayout, hsize, h⟩ := allPlaced_callLayout roles args hcc hall hlist
  have hsub : (layout.locations.flatMap Location.regs).Sublist roles.arguments :=
    h.regs.trans ((List.drop_sublist _ _).trans h.within.sublist)
  refine ⟨layout, hlayout, h.suits, fun r hr => hsub.subset hr, ?_, ?_, h.ordered, ?_⟩
  · refine (pairwise_idxOf_of_sublist hall hsub).imp ?_
    rintro a b hab
    exact ⟨by rintro rfl; exact Nat.lt_irrefl _ hab, hab⟩
  · intro loc hloc hne
    exact ⟨(h.starts loc hloc hne).1, hsize ▸ h.ends loc hloc⟩
  · have hround := h.bounded
    simp only [alignUp, CallState.empty] at hround
    omega

/-- An aggregate aligned to two words passes over a register, is split, and sends what follows to the
stack. -/
theorem callLayout_disjoint_splitAggregate :
    ∃ layout, callLayout .c .standard [.value .i32, .aggregate 24 8, .value .i64] = .ok layout ∧
      layout.locations.flatMap Location.regs = [.ofBits 10, .ofBits 12, .ofBits 13] ∧
      layout.stackSize = 24 ∧
      (layout.locations.Pairwise fun a b => a.stackSize ≠ 0 → b.stackSize ≠ 0 →
        a.stackOffset + a.stackSize ≤ b.stackOffset) := by
  obtain ⟨layout, hlayout, -, -, -, -, hstack, -⟩ :=
    callLayout_disjoint .c .standard [.value .i32, .aggregate 24 8, .value .i64] (.inl rfl)
      (by decide) (by decide)
  cases hlayout
  exact ⟨_, rfl, by decide, by decide, hstack⟩

end Dlx
