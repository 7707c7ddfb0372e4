import Dlx.Proofs.Link.Symbols

/-!
# Planned patches

Planning goes through the relocations of all sections and either stops at one that cannot be
applied or gives the patches of the others. Values are computed with 64 bits; since addresses have
32, a value that wraps never fits a field, so the ranges can be said of the exact numbers.

Results:
* `fits_relocValue_iff`: the wrapped value fits a field exactly when `S + A` or `S + A - P` does.
* `plan_eq_ok_iff`, `planObjects_eq_ok_iff`: what can be planned, and the patches.
* `applyPatches_planned`: planned patches can all be written.
-/
namespace Dlx

/-! ## Values of relocations -/

/-- `S + A` for an absolute relocation and `S + A - P` for one that counts from its place. -/
def RelocType.target (ty : RelocType) (symbol place : UInt32) (addend : Int64) : Int :=
  symbol.toNat + addend.toInt - if ty.rule.pcRelative then place.toNat else 0

theorem toInt_addressInt (a : UInt32) : (addressInt a).toInt = a.toNat := by
  have := a.toNat_lt
  exact Int64.toInt_ofNat_of_lt (by omega)

theorem RelocType.formula_eq_relative_iff (ty : RelocType) :
    ty.formula = .relative ↔ ty.rule.pcRelative = true := by
  cases ty <;> decide

theorem toInt_relocValue (ty : RelocType) (symbol place : UInt32) (addend : Int64) :
    (relocValue ty symbol place addend).toInt64.toInt =
      (ty.target symbol place addend).bmod 0x10000000000000000 := by
  unfold relocValue RelocType.target
  dsimp only
  rw [Int64.toInt64_toUInt64]
  by_cases h : ty.rule.pcRelative = true
  · rw [if_pos ((RelocType.formula_eq_relative_iff ty).mpr h), if_pos h, Int64.toInt_sub,
      Int64.toInt_add, toInt_addressInt, toInt_addressInt, Int.bmod_sub_bmod]
  · rw [if_neg fun h' => h ((RelocType.formula_eq_relative_iff ty).mp h'), if_neg h, Int64.toInt_add,
      toInt_addressInt]
    simp

theorem RelocType.target_bounds (ty : RelocType) (symbol place : UInt32) (addend : Int64) :
    -0x8000000100000000 ≤ ty.target symbol place addend ∧
      ty.target symbol place addend < 0x8000000100000000 := by
  have hs := symbol.toNat_lt
  have hp := place.toNat_lt
  have hl := addend.toInt_lt
  have hg := addend.le_toInt
  unfold RelocType.target
  split <;> omega

/-- A value that wraps at 64 bits is far from every field. -/
theorem fits_relocValue_iff (ty : RelocType) (symbol place : UInt32) (addend : Int64) :
    ty.Fits (relocValue ty symbol place addend).toInt64.toInt ↔
      ty.Fits (ty.target symbol place addend) := by
  have hb := ty.target_bounds symbol place addend
  rw [toInt_relocValue]
  generalize ty.target symbol place addend = t at hb
  rw [Int.bmod_def]
  cases ty <;> simp only [RelocType.Fits] <;> split <;> omega

/-- A distance or jump address that fits is not wrapped. -/
theorem toInt_relocValue_of_fits {ty : RelocType} (hty : ty = .pc16 ∨ ty = .pc26 ∨ ty = .abs26)
    {symbol place : UInt32} {addend : Int64} (h : ty.Fits (ty.target symbol place addend)) :
    (relocValue ty symbol place addend).toInt64.toInt = ty.target symbol place addend := by
  rw [toInt_relocValue]
  generalize ty.target symbol place addend = t at h
  rw [Int.bmod_def]
  rcases hty with rfl | rfl | rfl <;> simp only [RelocType.Fits] at h <;> split <;> omega

/-! ## The relocations of a section -/

/-- A relocation of a section at a placement can be applied, under an assignment of addresses. -/
def Applicable (p : Placement) (lookup : String → Option UInt32) (r : Reloc UInt32) : Prop :=
  ∃ ty, RelocType.ofCode? r.type = some ty ∧ (ty ≠ .none →
    r.offset.toNat + ty.rule.size ≤ p.length ∧ ∃ symbol, lookup r.symbol = some symbol ∧
      ty.Fits (ty.target symbol (p.address + r.offset) r.addend))

/-- The patch of a relocation that can be applied. -/
def patchOf? (p : Placement) (lookup : String → Option UInt32) (r : Reloc UInt32) : Option Patch := do
  let ty ← RelocType.ofCode? r.type
  if ty = .none then Option.none
  else
    let symbol ← lookup r.symbol
    some ⟨p.offset + r.offset.toNat, ty, relocValue ty symbol (p.address + r.offset) r.addend⟩

theorem RelocType.formula_eq_none_iff (ty : RelocType) : ty.formula = .none ↔ ty = .none := by
  cases ty <;> decide

theorem RelocType.ensureFits_eq_ok_iff (ty : RelocType) (v : UInt64) :
    ty.ensureFits v = .ok () ↔ ty.Fits v.toInt64.toInt := by
  rw [← RelocType.fieldValue_isOk_iff]
  unfold RelocType.ensureFits
  cases ty.rule.fieldValue v <;> simp

theorem planReloc_eq_ok_iff {p : Placement} {lookup : String → Option UInt32} {r : Reloc UInt32}
    {found : Option Patch} :
    planReloc p lookup r = .ok found ↔ Applicable p lookup r ∧ patchOf? p lookup r = found := by
  unfold planReloc relocTypeAt Applicable patchOf?
  cases hty : RelocType.ofCode? r.type with
  | none => simp [bind, Except.bind]
  | some ty =>
    by_cases hn : ty = .none
    · subst hn
      simp [bind, Except.bind, RelocType.formula, pure, Except.pure]
    · have hf : ty.formula ≠ .none := fun h => hn ((RelocType.formula_eq_none_iff ty).mp h)
      simp only [Option.some.injEq, exists_eq_left', hn, ne_eq, not_false_eq_true, forall_const]
      by_cases hb : r.offset.toNat + ty.rule.size ≤ p.length
      · cases hs : lookup r.symbol with
        | none => simp [bind, Except.bind, hf, hb, Nat.not_lt.mpr hb]
        | some symbol =>
          have hfit := RelocType.ensureFits_eq_ok_iff ty
            (relocValue ty symbol (p.address + r.offset) r.addend)
          rw [fits_relocValue_iff] at hfit
          simp only [hf, Nat.not_lt.mpr hb, if_false, bind, Except.bind, Option.bind, hn, hb,
            Option.some.injEq, exists_eq_left', true_and, ← hfit]
          cases ty.ensureFits (relocValue ty symbol (p.address + r.offset) r.addend) with
          | error e => simp
          | ok u => simp [pure, Except.pure]
      · simp [bind, Except.bind, hf, hb, Nat.not_le.mp hb]

theorem plan_eq_ok_iff {p : Placement} {lookup : String → Option UInt32}
    {relocs : List (Reloc UInt32)} {patches : List Patch} :
    plan p lookup relocs = .ok patches ↔
      (∀ r ∈ relocs, Applicable p lookup r) ∧ relocs.filterMap (patchOf? p lookup) = patches := by
  induction relocs generalizing patches with
  | nil => simp [plan]
  | cons r rest ih =>
    simp only [plan, Except.bind_eq_ok_iff, planReloc_eq_ok_iff, ih, List.forall_mem_cons,
      List.filterMap_cons]
    constructor
    · rintro ⟨found, ⟨hr, rfl⟩, _, ⟨hrest, rfl⟩, h⟩
      refine ⟨⟨hr, hrest⟩, ?_⟩
      rw [← Except.ok.inj h]
      cases patchOf? p lookup r <;> rfl
    · rintro ⟨⟨hr, hrest⟩, rfl⟩
      refine ⟨_, ⟨hr, rfl⟩, _, ⟨hrest, rfl⟩, ?_⟩
      cases patchOf? p lookup r <;> rfl

/-! ## Writing patches -/

def Patch.write (p : Patch) : Write := p.type.write p.offset p.value

/-- Nothing stands in the way of a patch of `len` bytes. -/
def Patch.Ready (p : Patch) (len : Nat) : Prop :=
  p.type ≠ .none ∧ p.type.Fits p.value.toInt64.toInt ∧ p.write.Within len

theorem Patch.apply_eq_ok_iff {p : Patch} {image out : Bytes} :
    p.apply image = .ok out ↔ p.Ready image.length ∧ p.write.apply image = out := by
  rw [Patch.apply, Except.mapError_eq_ok_iff, RelocType.patch_eq_ok_iff, Patch.Ready]
  simp only [and_assoc]
  rfl

theorem writePatches_eq_none_iff {image out : Bytes} {patches : List Patch} :
    writePatches image patches = (out, none) ↔ applyPatches image patches = .ok out := by
  unfold applyPatches
  obtain ⟨bytes, e⟩ := writePatches image patches
  cases e <;> simp

theorem applyPatches_cons {p : Patch} {rest : List Patch} {image out : Bytes} :
    applyPatches image (p :: rest) = .ok out ↔
      ∃ mid, p.apply image = .ok mid ∧ applyPatches mid rest = .ok out := by
  unfold applyPatches
  rw [writePatches]
  cases p.apply image <;> simp

theorem applyPatches_eq_ok_iff {image out : Bytes} {patches : List Patch} :
    applyPatches image patches = .ok out ↔
      (∀ p ∈ patches, p.Ready image.length) ∧ writeAll image (patches.map Patch.write) = out := by
  induction patches generalizing image with
  | nil => simp [applyPatches, writePatches]
  | cons p rest ih =>
    simp only [applyPatches_cons, Patch.apply_eq_ok_iff, ih, List.forall_mem_cons, List.map_cons,
      writeAll_cons]
    constructor
    · rintro ⟨_, ⟨hp, rfl⟩, hrest, h⟩
      rw [Write.length_apply hp.2.2] at hrest
      exact ⟨⟨hp, hrest⟩, h⟩
    · rintro ⟨⟨hp, hrest⟩, h⟩
      refine ⟨_, ⟨hp, rfl⟩, ?_, h⟩
      rwa [Write.length_apply hp.2.2]

/-- What a relocation writes into its section, which lies at an address. -/
def relocWrite? (address : UInt32) (lookup : String → Option UInt32) (r : Reloc UInt32) :
    Option Write := do
  let ty ← RelocType.ofCode? r.type
  if ty = .none then Option.none
  else
    let symbol ← lookup r.symbol
    some (ty.write r.offset.toNat (relocValue ty symbol (address + r.offset) r.addend))

theorem write_patchOf? (p : Placement) (lookup : String → Option UInt32) (r : Reloc UInt32) :
    (patchOf? p lookup r).map Patch.write =
      (relocWrite? p.address lookup r).map (·.shift p.offset) := by
  unfold patchOf? relocWrite?
  cases RelocType.ofCode? r.type with
  | none => rfl
  | some ty =>
    by_cases hn : ty = .none
    · simp [hn]
    · cases lookup r.symbol <;> simp [hn, Patch.write, Write.shift, RelocType.write]

/-- A relocation that can be applied writes into its section. -/
theorem Applicable.within {p : Placement} {lookup : String → Option UInt32} {r : Reloc UInt32}
    (h : Applicable p lookup r) {w : Write} (hw : relocWrite? p.address lookup r = some w) :
    w.Within p.length := by
  obtain ⟨ty, hty, hok⟩ := h
  unfold relocWrite? at hw
  rw [hty] at hw
  by_cases hn : ty = .none
  · simp [hn] at hw
  · obtain ⟨hb, symbol, hs, -⟩ := hok hn
    simp only [Option.bind_eq_bind, Option.bind_some, if_neg hn, hs, Option.some.injEq] at hw
    subst hw
    exact hb

theorem Applicable.ready {p : Placement} {lookup : String → Option UInt32} {r : Reloc UInt32}
    (h : Applicable p lookup r) {patch : Patch} (hp : patchOf? p lookup r = some patch) {len : Nat}
    (hlen : p.offset + p.length ≤ len) : patch.Ready len := by
  obtain ⟨ty, hty, hok⟩ := h
  unfold patchOf? at hp
  rw [hty] at hp
  by_cases hn : ty = .none
  · simp [hn] at hp
  · obtain ⟨hb, symbol, hs, hfit⟩ := hok hn
    simp only [Option.bind_eq_bind, Option.bind_some, if_neg hn, hs, Option.some.injEq] at hp
    subst hp
    refine ⟨hn, (fits_relocValue_iff _ _ _ _).mpr hfit, ?_⟩
    simp only [Write.Within, Patch.write, RelocType.write]
    omega

namespace Linker

/-! ## The relocations of all sections -/

/-- The patches of a section, if it is placed. -/
def sectionPatches (place : Nat → Option Placement) (lookup : String → Option UInt32) (index : Nat)
    (s : Section UInt32) : List Patch :=
  match place index with
  | some p => s.relocs.filterMap (patchOf? p lookup)
  | none => []

/-- Every relocation of a section can be applied where the section is placed. -/
def SectionApplicable (place : Nat → Option Placement) (lookup : String → Option UInt32)
    (index : Nat) (s : Section UInt32) : Prop :=
  ∀ p, place index = some p → ∀ r ∈ s.relocs, Applicable p lookup r

theorem planSections_eq_ok_iff {place : Nat → Option Placement} {lookup : String → Option UInt32}
    {index : Nat} {sections : List (Section UInt32)} {patches : List Patch} :
    planSections place lookup index sections = .ok patches ↔
      (∀ x ∈ sections.zipIdx index, SectionApplicable place lookup x.2 x.1) ∧
        ((sections.zipIdx index).flatMap fun x => sectionPatches place lookup x.2 x.1) = patches := by
  induction sections generalizing index patches with
  | nil => simp [planSections]
  | cons s rest ih =>
    simp only [planSections, List.zipIdx_cons, List.forall_mem_cons, List.flatMap_cons]
    unfold SectionApplicable sectionPatches
    cases hp : place index with
    | none =>
      simp only [pure, Except.pure, Except.bind_eq_ok_iff, ih, Except.ok.injEq, exists_eq_left']
      constructor
      · rintro ⟨_, ⟨hrest, rfl⟩, rfl⟩
        exact ⟨⟨fun p h => (Option.some_ne_none p h.symm).elim, hrest⟩, rfl⟩
      · rintro ⟨⟨-, hrest⟩, rfl⟩
        exact ⟨_, ⟨hrest, rfl⟩, rfl⟩
    | some p =>
      simp only [Except.bind_eq_ok_iff, plan_eq_ok_iff, ih]
      constructor
      · rintro ⟨_, ⟨hs, rfl⟩, _, ⟨hrest, rfl⟩, h⟩
        exact ⟨⟨fun q hq => Option.some.inj hq ▸ hs, hrest⟩, Except.ok.inj h⟩
      · rintro ⟨⟨hs, hrest⟩, rfl⟩
        exact ⟨_, ⟨hs p rfl, rfl⟩, _, ⟨hrest, rfl⟩, rfl⟩

theorem planObjects_eq_ok_iff {place : Nat → Nat → Option Placement} {a : Addresses} {k : Nat}
    {objects : List (Object UInt32 × NameMap UInt32)} {patches : List Patch} :
    planObjects place a k objects = .ok patches ↔
      (∀ x ∈ objects.zipIdx k, ∀ y ∈ x.1.1.sections.zipIdx,
        SectionApplicable (place x.2) (a.lookup x.1.2) y.2 y.1) ∧
      ((objects.zipIdx k).flatMap fun x => x.1.1.sections.zipIdx.flatMap fun y =>
        sectionPatches (place x.2) (a.lookup x.1.2) y.2 y.1) = patches := by
  induction objects generalizing k patches with
  | nil => simp [planObjects]
  | cons x rest ih =>
    obtain ⟨o, locals⟩ := x
    simp only [planObjects, Except.bind_eq_ok_iff, ih, planSections_eq_ok_iff, List.zipIdx_cons,
      List.forall_mem_cons, List.flatMap_cons]
    constructor
    · rintro ⟨_, ⟨ho, rfl⟩, _, ⟨hrest, rfl⟩, h⟩
      exact ⟨⟨ho, hrest⟩, Except.ok.inj h⟩
    · rintro ⟨⟨ho, hrest⟩, rfl⟩
      exact ⟨_, ⟨ho, rfl⟩, _, ⟨hrest, rfl⟩, rfl⟩

theorem flatMap_allSections {β : Type} (objects : List (Object UInt32)) (f : SectionAt → List β) :
    (allSections objects).flatMap f =
      objects.zipIdx.flatMap fun x => x.1.sections.zipIdx.flatMap fun y => f ⟨x.2, y.2, y.1⟩ := by
  simp only [allSections, sectionsOf, List.flatMap_assoc, List.flatMap_map]

theorem forall_allSections {objects : List (Object UInt32)} {P : SectionAt → Prop} :
    (∀ s ∈ allSections objects, P s) ↔
      ∀ x ∈ objects.zipIdx, ∀ y ∈ x.1.sections.zipIdx, P ⟨x.2, y.2, y.1⟩ := by
  simp only [allSections, sectionsOf, List.mem_flatMap, List.mem_map]
  constructor
  · intro h x hx y hy
    exact h _ ⟨x, hx, y, hy, rfl⟩
  · rintro h _ ⟨x, hx, y, hy, rfl⟩
    exact h x hx y hy

section
variable {l : Linker} {base : UInt32} (hh : HomesExist l.objects) {a : Addresses}
  (ha : collect (l.place base) 0 l.objects l.absolutes = .ok a)

include hh ha in
theorem length_locals : a.locals.length = l.objects.length := by
  rw [locals_of_collect hh ha, localTables, List.length_map, List.length_zipIdx]

include hh ha in
/-- With the tables of a link, planning looks names up by `address?`. -/
theorem plan_of_collect {patches : List Patch} :
    planObjects (l.place base) a 0 (l.objects.zip a.locals) = .ok patches ↔
      (∀ s ∈ allSections l.objects, SectionApplicable (l.place base s.object)
        (l.address? base s.object) s.index s.body) ∧
      ((allSections l.objects).flatMap fun s => sectionPatches (l.place base s.object)
        (l.address? base s.object) s.index s.body) = patches := by
  have hlookup : ∀ x ∈ (l.objects.zip a.locals).zipIdx, a.lookup x.1.2 = l.address? base x.2 := by
    intro x hx
    have hk := List.getElem?_zip_eq_some.mp (List.mem_zipIdx_iff_getElem?.mp hx)
    exact funext (lookup_eq_address? hh ha hk.2)
  -- The objects of the pairs, with their indices.
  have hzip : l.objects.zipIdx = (l.objects.zip a.locals).zipIdx.map fun x => (x.1.1, x.2) := by
    have hfst := List.map_fst_zip (Nat.le_of_eq (length_locals hh ha).symm)
    have h := List.zipIdx_map (l := l.objects.zip a.locals) (k := 0) (f := Prod.fst)
    rw [hfst] at h
    exact h
  rw [planObjects_eq_ok_iff, flatMap_allSections, forall_allSections, hzip, List.flatMap_map,
    List.forall_mem_map]
  refine and_congr ?_ (Eq.congr_left ?_)
  · refine forall₂_congr fun x hx => ?_
    rw [hlookup x hx]
  · refine List.flatMap_congr fun x hx => ?_
    rw [hlookup x hx]

/-- Planned patches can all be written. -/
theorem applyPatches_planned (h : ∀ s ∈ allSections l.objects,
      SectionApplicable (l.place base s.object) (l.address? base s.object) s.index s.body) :
    applyPatches (layout l.objects).bytes ((allSections l.objects).flatMap fun s =>
        sectionPatches (l.place base s.object) (l.address? base s.object) s.index s.body) =
      .ok (writeAll (layout l.objects).bytes (((allSections l.objects).flatMap fun s =>
        sectionPatches (l.place base s.object) (l.address? base s.object) s.index s.body).map
          Patch.write)) := by
  refine applyPatches_eq_ok_iff.mpr ⟨?_, rfl⟩
  intro patch hpatch
  obtain ⟨s, hs, hpatch⟩ := List.mem_flatMap.mp hpatch
  unfold sectionPatches at hpatch
  cases hp : l.place base s.object s.index with
  | none => simp [hp] at hpatch
  | some p =>
    rw [hp] at hpatch
    obtain ⟨r, hr, hpatch⟩ := List.mem_filterMap.mp hpatch
    obtain ⟨q, hq, -, rfl⟩ := placement?_eq_some_iff.mp hp
    exact (h s hs _ hp r hr).ready hpatch (stop_le_length hq)

end

end Linker

end Dlx
