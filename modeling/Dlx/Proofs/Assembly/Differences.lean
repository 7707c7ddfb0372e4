import Dlx.Proofs.Assembly.Replacement

/-!
# Differences of symbols

The difference of two symbols of one section does not depend on where the section is placed, so it
is settled when the unit is complete and never left to the linker. The section must be the one in
which the difference is used. For two symbols of another section the difference is refused, as it is
for symbols of two sections, although it has a value.

A difference that is settled must fit its field. A constant is cut to its field without a question,
so the two ways to write a value agree only as far as it fits.

Results:
* `difference_settled_at_home`: which differences are settled, and that a unit with one is finished
  as if its bytes had been given.
* `constant_matches_difference`: a difference of labels against the constant of the same value.
-/
namespace Dlx

/-- How far `x` lies behind `y`. -/
def distance (y x : UInt32) : Int64 := Int64.ofInt ((x.toNat : Int) - y.toNat)

theorem toInt_distance (y x : UInt32) : (distance y x).toInt = (x.toNat : Int) - y.toNat := by
  have hx := x.toNat_lt
  have hy := y.toNat_lt
  exact Int64.toInt_ofInt_of_le (by omega) (by omega)

theorem offsetInt_sub (x y : UInt32) : offsetInt x - offsetInt y = distance y x :=
  (Int64.ofInt_sub x.toNat y.toNat).symm

/-- Only data of one or two bytes has values that do not fit. -/
theorem FixupKind.fits_data_iff {size : Nat} {kind : FixupKind} (hkind : data? size = some kind)
    (v : Int) :
    kind.Fits v ↔ (size < 4 → -(capacity (8 * size - 1) : Int) ≤ v ∧ v < capacity (8 * size)) := by
  unfold data? at hkind
  split at hkind <;> cases hkind <;> simp [Fits, relocType?, RelocType.Fits, FixupKind.size]

/-! ## Settling a difference -/

section Settle

variable {localPc : Bool} {symbols : SymbolTable} {home : Nat} {f : Fixup} {a b : String}

theorem SymbolTable.home_unique {i j : Nat} {name : String} {x y : UInt32}
    (hi : symbols.offsetIn? i name = some x) (hj : symbols.offsetIn? j name = some y) : i = j := by
  unfold offsetIn? at hi hj
  cases hd : symbols.find? name with
  | none => simp [hd] at hi
  | some d =>
    simp only [hd, Option.bind_some, Option.ite_none_right_eq_some] at hi hj
    exact Option.some.inj (hi.1.symm.trans hj.1)

variable (hf : f.value = .sub (.sym a) (.sym b))
include hf

theorem settle_difference {x y : UInt32} (hx : symbols.offsetIn? home a = some x)
    (hy : symbols.offsetIn? home b = some y) :
    settle localPc symbols home f = .ok (.settled (distance y x).toUInt64) := by
  have hrefers : f.value.refers? = some ⟨.none, some a, some b, 0⟩ := by rw [hf]; rfl
  unfold settle
  rw [hrefers]
  simp only [hx, hy, Int64.add_zero, offsetInt_sub]

theorem settle_difference_error
    (h : symbols.offsetIn? home a = none ∨ symbols.offsetIn? home b = none) :
    settle localPc symbols home f = .error (.symbolDifference a b) := by
  have hrefers : f.value.refers? = some ⟨.none, some a, some b, 0⟩ := by rw [hf]; rfl
  unfold settle
  rw [hrefers]
  dsimp only
  split
  · next hx hy => simp [hx, hy] at h
  · rfl

/-- Two symbols of a section are settled in that section only. -/
theorem settle_difference_of_same {i : Nat} {x y : UInt32} (hx : symbols.offsetIn? i a = some x)
    (hy : symbols.offsetIn? i b = some y) :
    settle localPc symbols home f =
      if i = home then .ok (.settled (distance y x).toUInt64)
      else .error (.symbolDifference a b) := by
  split
  · next hi =>
    subst hi
    exact settle_difference hf hx hy
  · next hi =>
    refine settle_difference_error hf (.inl ?_)
    cases hx' : symbols.offsetIn? home a with
    | none => rfl
    | some x' => exact absurd (SymbolTable.home_unique hx hx') hi

end Settle

namespace Assembly

/-! ## A unit with a difference -/

section Unit

variable {here unit : Assembly} (hhere : here.Sound) {size : Nat} {kind : FixupKind}
  (hkind : FixupKind.data? size = some kind) {after : List Operation} {a b : String}
  (hunit : here.run (.value (.sub (.sym a) (.sym b)) size :: after) = unit)
include hhere hkind hunit

theorem finish_difference (hsize : ∀ s ∈ unit.sections, s.data.length < 0x100000000) {x y : UInt32}
    (hx : unit.symbols.offsetIn? here.current a = some x)
    (hy : unit.symbols.offsetIn? here.current b = some y) (o : Object RelocType) :
    unit.finish = .ok o ↔
      (size < 4 → -(capacity (8 * size - 1) : Int) ≤ (x.toNat : Int) - y.toNat ∧
        (x.toNat : Int) - y.toNat < capacity (8 * size)) ∧
      (here.run (.bytes (leBytes size (distance y x).toUInt64.toNat) :: after)).finish = .ok o := by
  subst hunit
  have hvalue : (distance y x).toUInt64.toInt64.toInt = (x.toNat : Int) - y.toNat :=
    toInt_distance y x
  rw [finish_settled_value hhere hkind rfl hsize (settle_difference rfl hx hy),
    FixupKind.fits_data_iff hkind, hvalue]

theorem defined_of_finish {o : Object RelocType} (h : unit.finish = .ok o) :
    ∃ x y, unit.symbols.offsetIn? here.current a = some x ∧
      unit.symbols.offsetIn? here.current b = some y := by
  subst hunit
  have hsettles := settles_of_finish hhere hkind rfl h
  generalize here.run (.value (.sub (.sym a) (.sym b)) size :: after) = unit at hsettles ⊢
  by_contra hnone
  have hundefined : unit.symbols.offsetIn? here.current a = none ∨
      unit.symbols.offsetIn? here.current b = none := by
    cases hx : unit.symbols.offsetIn? here.current a with
    | none => exact .inl rfl
    | some x =>
      cases hy : unit.symbols.offsetIn? here.current b with
      | none => exact .inr rfl
      | some y => exact absurd ⟨x, y, hx, hy⟩ hnone
  rw [Settles, settle_difference_error rfl hundefined] at hsettles
  exact hsettles

end Unit

/-- Differences are settled at home. Two symbols that are defined in one section are settled by
their distance where the difference is used in that section; everywhere else, and for symbols that
are not both defined in one section, the difference is refused. A unit with a difference can be
finished only if both symbols are defined in the section in which it stands and their distance fits,
and then it gives the object that it would give with the bytes of the distance in that place. -/
theorem difference_settled_at_home (localPc : Bool) (before after : List Operation) (a b : String)
    {size : Nat} {kind : FixupKind} (hkind : FixupKind.data? size = some kind)
    {here unit : Assembly} (hhere : (start localPc).run before = here)
    (hunit : here.run (.value (.sub (.sym a) (.sym b)) size :: after) = unit)
    (hsize : ∀ s ∈ unit.sections, s.data.length < 0x100000000) :
    (∀ (home : Nat) (f : Fixup), f.value = .sub (.sym a) (.sym b) →
      (∀ i x y, unit.symbols.offsetIn? i a = some x → unit.symbols.offsetIn? i b = some y →
        settle localPc unit.symbols home f =
          if i = home then .ok (.settled (distance y x).toUInt64)
          else .error (.symbolDifference a b)) ∧
      ((∀ i, unit.symbols.offsetIn? i a = none ∨ unit.symbols.offsetIn? i b = none) →
        settle localPc unit.symbols home f = .error (.symbolDifference a b))) ∧
    ∀ o, unit.finish = .ok o ↔
      ∃ x y, unit.symbols.offsetIn? here.current a = some x ∧
        unit.symbols.offsetIn? here.current b = some y ∧
        (size < 4 → -(capacity (8 * size - 1) : Int) ≤ (x.toNat : Int) - y.toNat ∧
          (x.toNat : Int) - y.toNat < capacity (8 * size)) ∧
        (here.run (.bytes (leBytes size (distance y x).toUInt64.toNat) :: after)).finish =
          .ok o := by
  have hsound : here.Sound := hhere ▸ (run_reaches _ before).sound (sound_start localPc)
  refine ⟨?_, ?_⟩
  · intro home f hf
    exact ⟨fun i x y hx hy => settle_difference_of_same hf hx hy,
      fun hnone => settle_difference_error hf (hnone home)⟩
  · intro o
    constructor
    · intro h
      obtain ⟨x, y, hx, hy⟩ := defined_of_finish hsound hkind hunit h
      exact ⟨x, y, hx, hy, (finish_difference hsound hkind hunit hsize hx hy o).mp h⟩
    · rintro ⟨x, y, hx, hy, h⟩
      exact (finish_difference hsound hkind hunit hsize hx hy o).mpr h

/-- A table that ends with its own length. -/
def tableStart : List Operation := [.enter ".data", .label "table", .bytes [7, 8]]

def tableEnd : List Operation := [.label "end", .enter ".text", .value (.sym "table") 4]

def tableUnit : Assembly :=
  ((start true).run tableStart).run (.value (.sub (.sym "end") (.sym "table")) 1 :: tableEnd)

theorem difference_settled_at_home_table :
    (∀ s ∈ tableUnit.sections, s.data.length < 0x100000000) ∧
    ∃ o, tableUnit.finish = .ok o ∧ o.sections.map (·.data) = [[0, 0, 0, 0], [7, 8, 3]] ∧
      ∃ x y, tableUnit.symbols.offsetIn? 1 "end" = some x ∧
        tableUnit.symbols.offsetIn? 1 "table" = some y ∧
        (1 < 4 → -(capacity 7 : Int) ≤ (x.toNat : Int) - y.toNat ∧
          (x.toNat : Int) - y.toNat < capacity 8) ∧
        (((start true).run tableStart).run
          (.bytes (leBytes 1 (distance y x).toUInt64.toNat) :: tableEnd)).finish = .ok o := by
  have hsize : ∀ s ∈ tableUnit.sections, s.data.length < 0x100000000 := by decide
  have hbuilt : ∃ o, tableUnit.finish = .ok o ∧
      o.sections.map (·.data) = [[0, 0, 0, 0], [7, 8, 3]] := ⟨_, rfl, rfl⟩
  obtain ⟨o, hfinish, hdata⟩ := hbuilt
  have hboth := difference_settled_at_home true tableStart tableEnd "end" "table" rfl rfl rfl hsize
  exact ⟨hsize, o, hfinish, hdata, (hboth.2 o).mp hfinish⟩

/-- The same two symbols from another section: their distance is known and yet refused. -/
theorem difference_of_other_section_refused :
    let unit := (start true).run [.enter ".data", .label "a", .value (.const 1) 4, .label "b",
      .enter ".text", .value (.sub (.sym "b") (.sym "a")) 4]
    unit.symbols.offsetIn? 1 "a" = some 0 ∧ unit.symbols.offsetIn? 1 "b" = some 4 ∧
      unit.finish = .error (.symbolDifference "b" "a") :=
  ⟨rfl, rfl, rfl⟩

/-! ## A difference and a constant -/

/-- A constant is in the object where it was emitted, cut to its size. -/
theorem slice?_of_finish_constant {here : Assembly} (hhere : here.Sound) {e : Expr} {v : Int64}
    (he : e.constant? = some v) {size : Nat} {kind : FixupKind}
    (hkind : FixupKind.data? size = some kind) {after : List Operation}
    (hsize : ∀ s ∈ (here.run (.value e size :: after)).sections, s.data.length < 0x100000000)
    {o : Object RelocType} (h : (here.run (.value e size :: after)).finish = .ok o) :
    ∃ t, o.sections[here.current]? = some t ∧
      slice? t.data here.offset.toNat size = some (leBytes size v.toUInt64.toNat) := by
  have hsound := (run_reaches here (.value e size :: after)).sound hhere
  have hperform := here.perform_value hkind e
  rw [run_cons_of_ok hperform] at hsize hsound h
  obtain ⟨s, t, bytes, rest, hs, ht, hdata, hlength, hcases⟩ :=
    value_stays hhere hperform (run_reaches _ after)
  obtain ⟨-, rfl⟩ := (finish_eq_ok_iff hsound).mp h
  have hmem := List.mem_of_getElem? ht
  have htidy := hsound.tidy t hmem
  have hlt := hsize t hmem
  rcases hcases with ⟨w, hw, hbytes, huntouched⟩ | ⟨kind', hnone, -⟩
  · rw [he] at hw
    cases hw
    refine ⟨_, by rw [getElem?_sections_object, ht, Option.map_some], ?_⟩
    have hplace : here.offset.toNat = s.data.length := by
      rw [offset_eq hs]
      refine UInt32.toNat_ofNat_of_lt' (Nat.lt_of_le_of_lt ?_ hlt)
      rw [← hdata, List.append_assoc, List.length_append]
      exact Nat.le_add_right _ _
    rw [closed, hplace, slice?_writeAll_of_apart (within_settledWrites htidy)]
    · rw [slice?_eq_some_iff, ← hdata, List.append_assoc, List.drop_left, hbytes]
      exact ⟨by simp [length_leBytes], List.take_left' (length_leBytes _ _)⟩
    · intro w hw
      obtain ⟨f, hf, hw⟩ := List.mem_filterMap.mp hw
      obtain ⟨x, -, rfl⟩ := settledWrite?_eq_some_iff.mp hw
      simpa using huntouched hlt f hf
  · rw [he] at hnone
    cases hnone

/-- The constant and the label difference of the same value. Where the value fits its size, both
give the same object or both fail. Where it does not, the difference is refused, while a constant is
accepted like any other and stored cut to its size. -/
theorem constant_matches_difference (localPc : Bool) (before after : List Operation) (a b : String)
    {size : Nat} {kind : FixupKind} (hkind : FixupKind.data? size = some kind)
    {here unit : Assembly} (hhere : (start localPc).run before = here)
    (hunit : here.run (.value (.sub (.sym a) (.sym b)) size :: after) = unit)
    (hsize : ∀ s ∈ unit.sections, s.data.length < 0x100000000) {x y : UInt32}
    (hx : unit.symbols.offsetIn? here.current a = some x)
    (hy : unit.symbols.offsetIn? here.current b = some y) {e : Expr}
    (he : e.constant? = some (distance y x)) :
    (∀ o, unit.finish = .ok o ↔
      (size < 4 → -(capacity (8 * size - 1) : Int) ≤ (x.toNat : Int) - y.toNat ∧
        (x.toNat : Int) - y.toNat < capacity (8 * size)) ∧
      (here.run (.value e size :: after)).finish = .ok o) ∧
    ∀ (e' : Expr) (v : Int64), e'.constant? = some v →
      ((∃ o, (here.run (.value e' size :: after)).finish = .ok o) ↔
        ∃ o, (here.run (.value e size :: after)).finish = .ok o) ∧
      ∀ o, (here.run (.value e' size :: after)).finish = .ok o →
        ∃ t, o.sections[here.current]? = some t ∧
          slice? t.data here.offset.toNat size = some (leBytes size v.toUInt64.toNat) := by
  have hsound : here.Sound := hhere ▸ (run_reaches _ before).sound (sound_start localPc)
  refine ⟨?_, ?_⟩
  · intro o
    rw [run_constant hkind he]
    exact finish_difference hsound hkind hunit hsize hx hy o
  · intro e' v hv
    refine ⟨?_, ?_⟩
    · rw [run_constant hkind hv, run_constant hkind he]
      exact finish_bytes_ok_iff hsound (by rw [length_leBytes, length_leBytes]) after
    · intro o ho
      refine slice?_of_finish_constant hsound hv hkind ?_ ho
      -- the sections are as long as with the difference
      obtain ⟨s, hs⟩ := hsound.exists_current
      rw [run_constant hkind hv]
      rw [← hunit] at hsize
      exact (differ_pending hkind rfl hs (length_leBytes size _) after).length_lt hsize

theorem constant_matches_difference_halfword :
    let here := (start true).run [.bytes [1], .label "low", .bytes [2, 3, 4]]
    let unit := here.run [.value (.sub (.sym "low") (.sym "high")) 2, .label "high"]
    (∀ s ∈ unit.sections, s.data.length < 0x100000000) ∧
    unit.symbols.offsetIn? here.current "low" = some 1 ∧
    unit.symbols.offsetIn? here.current "high" = some 6 ∧
    ∃ o, unit.finish = .ok o ∧
      (here.run [.value (.const (-5)) 2, .label "high"]).finish = .ok o := by
  intro here unit
  have hsize : ∀ s ∈ unit.sections, s.data.length < 0x100000000 := by decide
  have hlow : unit.symbols.offsetIn? here.current "low" = some 1 := rfl
  have hhigh : unit.symbols.offsetIn? here.current "high" = some 6 := rfl
  have hbuilt : ∃ o, unit.finish = .ok o := ⟨_, rfl⟩
  obtain ⟨o, hfinish⟩ := hbuilt
  have hboth := constant_matches_difference true [.bytes [1], .label "low", .bytes [2, 3, 4]]
    [.label "high"] "low" "high" rfl rfl rfl hsize hlow hhigh (e := .const (-5)) (by decide)
  exact ⟨hsize, hlow, hhigh, o, hfinish, ((hboth.1 o).mp hfinish).2⟩

/-- A byte that does not hold the value: the constant is cut, the difference refused. -/
theorem wide_constant_cut_and_difference_refused :
    let here := (start true).run [.label "a", .bytes (List.replicate 136 0), .label "b"]
    (here.run [.value (.const (-136)) 1]).finish.map (fun o => o.sections.map (·.data)) =
      .ok [List.replicate 136 0 ++ [0x78]] ∧
    (here.run [.value (.sub (.sym "a") (.sym "b")) 1]).finish.map (fun o => o.sections.map (·.data)) =
      .error (.dataOutOfRange 1 (-136)) := by
  decide +kernel

end Assembly

end Dlx
