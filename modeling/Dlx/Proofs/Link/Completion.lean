import Dlx.Proofs.Assembly.Finishing
import Dlx.Proofs.Link.Success

/-!
# What assembling and linking make of a fixup

A fixup gets its value when its unit is finished or when the objects are linked. Here its value is
said without regard to when: as if every symbol were looked up by the linker. A distance that is
resolved early comes out the same, because both of its ends move with the section.

Results:
* `resolves_iff`: the two stages together succeed on a fixup when its value exists and fits.
* `link_finished_iff`: when assembled units can be finished and linked, and the image. Neither
  mentions whether the units resolve distances early.
-/
namespace Dlx

namespace Assembly

/-! ## The value of a fixup -/

/-- The value of a fixup of a section at an address, with all symbols looked up. -/
def value? (a : Assembly) (home : Nat) (address : UInt32) (lookup : String → Option UInt32)
    (f : Fixup) : Option UInt64 :=
  match settle false a.symbols home f with
  | .ok (.settled v) => some v
  | .ok (.deferred symbol addend) => do
    let ty ← f.kind.relocType?
    let s ← lookup symbol
    some (relocValue ty s (address + f.offset) addend)
  | .error _ => none

/-- A fixup has a value, which fits its field. -/
def Resolves (a : Assembly) (home : Nat) (address : UInt32) (lookup : String → Option UInt32)
    (f : Fixup) : Prop :=
  ∃ v, a.value? home address lookup f = some v ∧ f.kind.Fits v.toInt64.toInt

/-- Early resolution changes only distances to symbols of the section. -/
theorem settle_cases (localPc : Bool) (symbols : SymbolTable) (home : Nat) (f : Fixup) :
    settle localPc symbols home f = settle false symbols home f ∨
      ∃ symbol addend t, f.kind.isPcRelative = true ∧
        settle false symbols home f = .ok (.deferred symbol addend) ∧
        symbols.offsetIn? home symbol = some t ∧
        settle localPc symbols home f =
          .ok (.settled (offsetInt t + addend - offsetInt f.offset).toUInt64) := by
  unfold settle
  cases f.value.refers? with
  | none => exact .inl rfl
  | some r =>
    obtain ⟨m, symbol, subtrahend, addend⟩ := r
    match symbol, subtrahend with
    | none, _ => exact .inl rfl
    | some symbol, some subtrahend => exact .inl rfl
    | some symbol, none =>
      cases ht : symbols.offsetIn? home symbol with
      | none => exact .inl (by simp only [ht])
      | some t =>
        by_cases hpc : (f.kind.isPcRelative && localPc) = true
        · refine .inr ⟨symbol, addend, t, (Bool.and_eq_true_iff.mp hpc).1, ?_, ht, ?_⟩
          · simp only [ht, Bool.and_false, Bool.false_eq_true, if_false]
          · simp only [ht, hpc, if_true]
        · exact .inl (by simp only [ht, hpc, Bool.and_false, Bool.false_eq_true, if_false])

/-- An address in a section that ends in the address space. -/
theorem addressInt_add {address u : UInt32} {len : Nat}
    (hend : address.toNat + len < 0x100000000) (hu : u.toNat ≤ len) :
    addressInt (address + u) = addressInt address + offsetInt u := by
  have hsum : (address + u).toNat = address.toNat + u.toNat := by
    rw [UInt32.toNat_add, Nat.mod_eq_of_lt (by omega)]
  rw [addressInt, hsum, Int64.ofNat_add]
  rfl

/-- The distance between two places of a section does not depend on where it lies. -/
theorem relocValue_local {ty : RelocType} (hty : ty.rule.pcRelative = true)
    {address t offset : UInt32} (addend : Int64) {len : Nat}
    (hend : address.toNat + len < 0x100000000) (ht : t.toNat ≤ len) (ho : offset.toNat ≤ len) :
    relocValue ty (address + t) (address + offset) addend =
      (offsetInt t + addend - offsetInt offset).toUInt64 := by
  unfold relocValue
  dsimp only
  rw [if_pos ((RelocType.formula_eq_relative_iff ty).mpr hty), addressInt_add hend ht,
    addressInt_add hend ho]
  congr 1
  grind

/-! ## The two stages of a fixup -/

/-- A section lies below the end of the address space, and its symbols are looked up where they lie
in it. -/
structure Located (a : Assembly) (home : Nat) (p : Placement) (lookup : String → Option UInt32) :
    Prop where
  address_lt : p.address.toNat + p.length < 0x100000000
  symbols : ∀ name t, a.symbols.offsetIn? home name = some t →
    t.toNat ≤ p.length ∧ lookup name = some (p.address + t)

theorem applicable_withCode_iff {p : Placement} {lookup : String → Option UInt32} {f : Fixup}
    {ty : RelocType} (hty : f.kind.relocType? = some ty)
    (hin : f.offset.toNat + f.kind.size ≤ p.length) (symbol : String) (addend : Int64) :
    Applicable p lookup (Reloc.withCode ⟨f.offset, symbol, ty, addend⟩) ↔
      ∃ s, lookup symbol = some s ∧
        f.kind.Fits (relocValue ty s (p.address + f.offset) addend).toInt64.toInt := by
  have hne := FixupKind.ne_none_of_relocType? hty
  have hin' : f.offset.toNat + ty.rule.size ≤ p.length := by
    rwa [FixupKind.size_of_relocType? hty]
  simp [Applicable, Reloc.withCode, RelocType.ofCode?_code, hne, hin',
    FixupKind.fits_of_relocType? hty, fits_relocValue_iff]

section
variable {a : Assembly} {home : Nat} {p : Placement} {lookup : String → Option UInt32} {f : Fixup}
  (hloc : a.Located home p lookup) (hin : f.offset.toNat + f.kind.size ≤ p.length)
include hloc hin

/-- A distance that is resolved early has the value that the linker would give it. -/
theorem value?_of_early {symbol : String} {addend : Int64} {t : UInt32}
    (hpc : f.kind.isPcRelative = true)
    (hlate : settle false a.symbols home f = .ok (.deferred symbol addend))
    (ht : a.symbols.offsetIn? home symbol = some t) :
    a.value? home p.address lookup f =
      some (offsetInt t + addend - offsetInt f.offset).toUInt64 := by
  obtain ⟨hle, hlookup⟩ := hloc.symbols symbol t ht
  obtain ⟨ty, hty⟩ : ∃ ty, f.kind.relocType? = some ty := by
    cases hk : f.kind <;> rw [hk] at hpc <;> cases hpc <;> exact ⟨_, rfl⟩
  have hrel := FixupKind.pcRelative_rule hty
  rw [hpc] at hrel
  unfold value?
  rw [hlate]
  simp only [hty, hlookup, Option.bind_eq_bind, Option.bind_some]
  rw [relocValue_local hrel addend hloc.address_lt hle (by omega)]

theorem resolves_iff :
    (a.Settles home f ∧
        ∀ r, a.deferredReloc? home f = some r → Applicable p lookup r.withCode) ↔
      a.Resolves home p.address lookup f := by
  unfold Settles deferredReloc? Resolves
  rcases settle_cases a.localPc a.symbols home f with hsame | ⟨symbol, addend, t, hpc, hlate, ht, hearly⟩
  · rw [hsame]
    unfold value?
    cases settle false a.symbols home f with
    | error e => simp
    | ok outcome =>
      cases outcome with
      | settled v => simp
      | deferred symbol addend =>
        cases hty : f.kind.relocType? with
        | none => simp
        | some ty =>
          simp [applicable_withCode_iff hty hin, Option.bind_eq_some_iff]
  · rw [hearly, value?_of_early hloc hin hpc hlate ht]
    simp

/-- What the two stages write for a fixup. -/
theorem stages_write :
    (a.settledWrite? home f).or
        ((a.deferredReloc? home f).bind fun r => relocWrite? p.address lookup r.withCode) =
      (a.value? home p.address lookup f).map f.write := by
  unfold settledWrite? deferredReloc?
  rcases settle_cases a.localPc a.symbols home f with hsame | ⟨symbol, addend, t, hpc, hlate, ht, hearly⟩
  · rw [hsame]
    unfold value?
    cases settle false a.symbols home f with
    | error e => simp
    | ok outcome =>
      cases outcome with
      | settled v => simp
      | deferred symbol addend =>
        cases hty : f.kind.relocType? with
        | none => simp
        | some ty =>
          have hne := FixupKind.ne_none_of_relocType? hty
          cases hl : lookup symbol <;>
            simp [hl, relocWrite?, Reloc.withCode, RelocType.ofCode?_code, hne,
              Fixup.write_of_relocType? hty]
  · rw [hearly, value?_of_early hloc hin hpc hlate ht]
    simp

end

/-! ## The two stages of a section -/

theorem filterMap_append_perm {α β : Type} {f g : α → Option β} {l : List α}
    (h : ∀ x ∈ l, f x = none ∨ g x = none) :
    (l.filterMap f ++ l.filterMap g).Perm (l.filterMap fun x => (f x).or (g x)) := by
  induction l with
  | nil => exact .nil
  | cons x l ih =>
    obtain ⟨hx, hl⟩ := List.forall_mem_cons.mp h
    have ih := ih hl
    cases hf : f x with
    | some y =>
      have hg : g x = none := by simpa [hf] using hx
      simpa [List.filterMap_cons, hf, hg] using ih
    | none =>
      cases hg : g x with
      | none => simpa [List.filterMap_cons, hf, hg] using ih
      | some y =>
        simp only [List.filterMap_cons, hf, hg, Option.none_or]
        exact List.perm_middle.trans (ih.cons y)

/-- The data of a section with the values of all its fixups. -/
def completedData (a : Assembly) (home : Nat) (address : UInt32) (lookup : String → Option UInt32)
    (s : OpenSection) : Bytes :=
  writeAll s.data (s.fixups.filterMap fun f => (a.value? home address lookup f).map f.write)

section
variable {a : Assembly} {home : Nat} {address : UInt32} {lookup : String → Option UInt32}
  {s : OpenSection} (hs : s.Tidy)

include hs in
theorem completion_within :
    ∀ w ∈ s.fixups.filterMap fun f => (a.value? home address lookup f).map f.write,
      w.Within s.data.length := by
  intro w hw
  obtain ⟨f, hf, hw⟩ := List.mem_filterMap.mp hw
  obtain ⟨v, -, rfl⟩ := Option.map_eq_some_iff.mp hw
  simpa [Write.Within] using hs.within f hf

include hs in
theorem completion_apart (hlen : s.data.length < 0x100000000) :
    (s.fixups.filterMap fun f => (a.value? home address lookup f).map f.write).Pairwise
      Write.Apart := by
  refine List.Pairwise.filterMap _ ?_ (hs.ordered hlen)
  intro f g hfg w hw w' hw'
  obtain ⟨v, -, rfl⟩ := Option.map_eq_some_iff.mp hw
  obtain ⟨v', -, rfl⟩ := Option.map_eq_some_iff.mp hw'
  exact .inl (by simpa using hfg)

include hs in
theorem length_completedData :
    (a.completedData home address lookup s).length = s.data.length :=
  length_writeAll (completion_within hs)

end

/-- Relocating a finished section completes it. -/
theorem writeAll_closed {a : Assembly} {home : Nat} {p : Placement}
    {lookup : String → Option UInt32} {s : OpenSection} (hs : s.Tidy)
    (hloc : a.Located home p lookup) (hp : p.length = s.data.length) :
    writeAll (a.closed home s).data
        ((a.closed home s).withCodes.relocs.filterMap (relocWrite? p.address lookup)) =
      a.completedData home p.address lookup s := by
  have hlen := hloc.address_lt
  have hstages : s.fixups.filterMap (fun f => (a.settledWrite? home f).or
        ((a.deferredReloc? home f).bind fun r => relocWrite? p.address lookup r.withCode)) =
      s.fixups.filterMap fun f => (a.value? home p.address lookup f).map f.write :=
    List.filterMap_congr fun f hf => stages_write hloc (by rw [hp]; exact hs.within f hf)
  have hperm := filterMap_append_perm (l := s.fixups) (f := a.settledWrite? home)
    (g := fun f => (a.deferredReloc? home f).bind fun r => relocWrite? p.address lookup r.withCode)
    (by
      intro f _
      unfold settledWrite? deferredReloc?
      split <;> simp_all)
  rw [hstages] at hperm
  have hrelocs : (a.closed home s).withCodes.relocs.filterMap (relocWrite? p.address lookup) =
      s.fixups.filterMap fun f =>
        (a.deferredReloc? home f).bind fun r => relocWrite? p.address lookup r.withCode := by
    simp only [closed, Section.withCodes, List.filterMap_map, List.filterMap_filterMap]
    rfl
  rw [hrelocs, closed, ← writeAll_append]
  exact (writeAll_perm hperm.symm (completion_within hs) (completion_apart hs (by omega))).symm

end Assembly

/-- The unit as an object, before any fixup is settled. -/
def Assembly.bare (a : Assembly) : Object UInt32 :=
  ⟨a.sections.map fun s => ⟨s.name, s.kind, s.data, []⟩, a.listedSymbols⟩

namespace Linker

/-! ## Units together -/

/-- A linker with finished units. -/
def ofFinished (units : List Assembly) (absolutes : NameMap UInt32) : Linker :=
  ⟨units.map fun a => a.object.withCodes, absolutes⟩

/-- A linker with the units before any fixup is settled. Sections and names are already where they
are in the end. -/
def ofUnits (units : List Assembly) (absolutes : NameMap UInt32) : Linker :=
  ⟨units.map Assembly.bare, absolutes⟩

/-- Names that only relocations mention are nowhere defined. -/
theorem definitions_object (a : Assembly) (isGlobal : Bool) (place : Nat → Option Placement) :
    definitions isGlobal place a.object.symbols = definitions isGlobal place a.listedSymbols := by
  have hnone : ∀ names : List String,
      definitions isGlobal place (names.map fun name => ⟨name, none, 0, true⟩) = [] := by
    intro names
    simp [definitions, List.filterMap_map, symbolAddress?, Function.comp_def]
  rw [Assembly.object, definitions, List.filterMap_append]
  exact (congrArg _ (hnone _)).trans (List.append_nil _)

section
variable {units : List Assembly} {absolutes : NameMap UInt32}

theorem globalDefinitions_ofFinished (place : Nat → Nat → Option Placement) :
    globalDefinitions place 0 (ofFinished units absolutes).objects =
      globalDefinitions place 0 (ofUnits units absolutes).objects := by
  simp only [globalDefinitions, ofFinished, ofUnits, List.zipIdx_map, List.flatMap_map]
  exact List.flatMap_congr fun x _ => definitions_object x.1 true (place x.2)

theorem definedNames_ofFinished :
    (ofFinished units absolutes).definedNames = (ofUnits units absolutes).definedNames := by
  have hfilter : ∀ a : Assembly,
      a.object.symbols.filter (fun s => s.isGlobal && s.home.isSome) =
        a.listedSymbols.filter fun s => s.isGlobal && s.home.isSome := by
    intro a
    simp [Assembly.object, List.filter_append]
  simp only [definedNames, ofFinished, ofUnits, List.flatMap_map]
  congr 1
  exact List.flatMap_congr fun a _ => congrArg _ (hfilter a)

variable (hs : ∀ a ∈ units, a.Sound)
include hs

theorem shape_ofFinished :
    shape (ofFinished units absolutes).objects = shape (ofUnits units absolutes).objects := by
  simp only [shape, ofFinished, ofUnits, List.map_map]
  refine List.map_congr_left fun a ha => ?_
  simp only [Function.comp_apply, Object.withCodes, Assembly.object, Assembly.bare, List.map_map]
  apply List.ext_getElem?
  intro i
  simp only [List.getElem?_map, List.getElem?_mapIdx, Option.map_map]
  apply Option.map_congr
  intro s hi
  exact Prod.ext rfl (Assembly.length_closed ((hs a ha).tidy s (List.mem_of_getElem? hi)) i)

theorem place_ofFinished (base : UInt32) :
    (ofFinished units absolutes).place base = (ofUnits units absolutes).place base := by
  funext k i
  exact placement?_congr (shape_ofFinished hs) base k i

theorem globalAddress?_ofFinished (base : UInt32) :
    (ofFinished units absolutes).globalAddress? base =
      (ofUnits units absolutes).globalAddress? base := by
  funext name
  rw [globalAddress?, place_ofFinished hs, globalDefinitions_ofFinished]
  rfl

theorem entryPoint?_ofFinished (options : LinkSettings) :
    (ofFinished units absolutes).entryPoint? options = (ofUnits units absolutes).entryPoint? options := by
  rw [entryPoint?, globalAddress?_ofFinished hs]
  rfl

theorem address?_ofFinished (base : UInt32) :
    (ofFinished units absolutes).address? base = (ofUnits units absolutes).address? base := by
  funext k name
  rw [address?, address?, globalAddress?_ofFinished hs, place_ofFinished hs]
  congr 1
  simp only [ofFinished, ofUnits, List.getElem?_map]
  cases units[k]? with
  | none => rfl
  | some a =>
    have h := definitions_object a false ((ofUnits units absolutes).place base k)
    exact congrArg (fun ds : List (String × UInt32) => ds.reverse.lookup name) h

theorem homesExist_ofUnits : HomesExist (ofUnits units absolutes).objects := by
  intro o ho s hsym i hi
  obtain ⟨a, ha, rfl⟩ := List.mem_map.mp ho
  have := (hs a ha).home_lt hsym hi
  simpa [Assembly.bare] using this

theorem homesExist_ofFinished : HomesExist (ofFinished units absolutes).objects := by
  intro o ho s hsym i hi
  obtain ⟨a, ha, rfl⟩ := List.mem_map.mp ho
  rcases List.mem_append.mp hsym with h | h
  · have := (hs a ha).home_lt h hi
    simpa [Object.withCodes, Assembly.object] using this
  · obtain ⟨name, -, rfl⟩ := List.mem_map.mp h
    cases hi

omit hs in
theorem getElem?_ofUnits {k : Nat} {a : Assembly} (ha : units[k]? = some a) :
    (ofUnits units absolutes).objects[k]? = some a.bare := by
  simp [ofUnits, ha]

omit hs in
theorem exists_place_ofUnits (base : UInt32) {k i : Nat} {a : Assembly} {s : OpenSection}
    (ha : units[k]? = some a) (hsec : a.sections[i]? = some s) :
    ∃ p, (ofUnits units absolutes).place base k i = some p ∧ p.length = s.data.length := by
  have hos : a.bare.sections[i]? = some ⟨s.name, s.kind, s.data, []⟩ := by
    simp [Assembly.bare, hsec]
  exact exists_placement base (getElem?_ofUnits ha) hos

/-- The sections of an image that ends in the address space are located where they are placed. -/
theorem located (base : UInt32) (hn : (ofUnits units absolutes).definedNames.Nodup)
    (hsize : base.toNat + (layout (ofUnits units absolutes).objects).bytes.length < 0x100000000)
    {k i : Nat} {a : Assembly} {s : OpenSection} (ha : units[k]? = some a)
    (hsec : a.sections[i]? = some s) {p : Placement}
    (hp : (ofUnits units absolutes).place base k i = some p) :
    a.Located i p ((ofUnits units absolutes).address? base k) ∧ p.length = s.data.length := by
  obtain ⟨q, hq, hlen⟩ := exists_place_ofUnits base ha hsec
  rw [hq] at hp
  cases hp
  obtain ⟨haddr, hstop⟩ := placement?_bounds hq hsize
  refine ⟨⟨by omega, ?_⟩, hlen⟩
  · intro name t ht
    obtain ⟨d, hd, hdt⟩ := Option.bind_eq_some_iff.mp ht
    split at hdt
    · next hhome =>
      cases hdt
      obtain ⟨s', hs', hle⟩ := (hs a (List.mem_of_getElem? ha)).home name d i hd hhome
      rw [hsec] at hs'
      cases hs'
      refine ⟨by rw [hlen]; exact hle, ?_⟩
      have hnames : (a.bare.symbols.map (·.name)).Nodup := by
        simpa [Assembly.bare, Assembly.listedSymbols, Assembly.symbolOf, Function.comp_def] using
          NameMap.nodup_names a.symbols
      exact address?_of_mem (s := Assembly.symbolOf name d) (homesExist_ofUnits hs) hn
        (getElem?_ofUnits ha) hnames
        (List.mem_map.mpr ⟨(name, d), NameMap.mem_entries_of_find? hd, rfl⟩) hhome hq
    · cases hdt

end

/-- The units with the values of all fixups, in the places that a link at `base` gives them. -/
def completed (units : List Assembly) (absolutes : NameMap UInt32) (base : UInt32) :
    List (Object UInt32) :=
  let l := ofUnits units absolutes
  units.mapIdx fun k a =>
    ⟨a.sections.mapIdx fun i s =>
      match l.place base k i with
      | some p => ⟨s.name, s.kind, a.completedData i p.address (l.address? base k) s, []⟩
      | none => ⟨s.name, s.kind, s.data, []⟩,
    a.listedSymbols⟩

/-- Every fixup of every unit has a value that fits. -/
def AllResolve (units : List Assembly) (absolutes : NameMap UInt32) (base : UInt32) : Prop :=
  ∀ (k : Nat) (a : Assembly), units[k]? = some a →
    ∀ (i : Nat) (s : OpenSection), a.sections[i]? = some s →
      ∀ p, (ofUnits units absolutes).place base k i = some p →
        ∀ f ∈ s.fixups, a.Resolves i p.address ((ofUnits units absolutes).address? base k) f

section
variable {units : List Assembly} {absolutes : NameMap UInt32}

theorem mem_allSections_ofFinished {x : SectionAt} :
    x ∈ allSections (ofFinished units absolutes).objects ↔
      ∃ a s, units[x.object]? = some a ∧ a.sections[x.index]? = some s ∧
        (a.closed x.index s).withCodes = x.body := by
  rw [mem_allSections]
  simp only [ofFinished, List.getElem?_map, Option.map_eq_some_iff]
  constructor
  · rintro ⟨_, ⟨a, ha, rfl⟩, hx⟩
    simp only [Object.withCodes, Assembly.object, List.getElem?_map, List.getElem?_mapIdx,
      Option.map_map, Option.map_eq_some_iff] at hx
    obtain ⟨s, hs, hx⟩ := hx
    exact ⟨a, s, ha, hs, hx⟩
  · rintro ⟨a, s, ha, hs, hx⟩
    refine ⟨_, ⟨a, ha, rfl⟩, ?_⟩
    simp only [Object.withCodes, Assembly.object, List.getElem?_map, List.getElem?_mapIdx, hs,
      Option.map_some, hx]

variable (hs : ∀ a ∈ units, a.Sound) {base : UInt32}
  (hn : (ofUnits units absolutes).definedNames.Nodup)
  (hsize : base.toNat + (layout (ofUnits units absolutes).objects).bytes.length < 0x100000000)
include hs hn hsize

theorem allResolve_iff :
    (∀ a ∈ units, a.AllSettle) ∧ (ofFinished units absolutes).AllApplicable base ↔
      AllResolve units absolutes base := by
  unfold AllApplicable SectionApplicable
  rw [place_ofFinished hs, address?_ofFinished hs]
  constructor
  · rintro ⟨hset, happ⟩ k a ha i s hsec p hp f hf
    obtain ⟨hloc, hlen⟩ := located hs base hn hsize ha hsec hp
    have hin := ((hs a (List.mem_of_getElem? ha)).tidy s (List.mem_of_getElem? hsec)).within f hf
    refine (Assembly.resolves_iff hloc (hlen ▸ hin)).mp ⟨hset a (List.mem_of_getElem? ha) i s hsec f hf, ?_⟩
    intro r hr
    refine happ ⟨k, i, (a.closed i s).withCodes⟩
      (mem_allSections_ofFinished.mpr ⟨a, s, ha, hsec, rfl⟩) p hp r.withCode ?_
    exact List.mem_map_of_mem (List.mem_filterMap.mpr ⟨f, hf, hr⟩)
  · intro h
    -- Both stages succeed on a fixup, wherever its section lies.
    have hboth : ∀ {k i : Nat} {a : Assembly} {s : OpenSection} {p : Placement},
        units[k]? = some a → a.sections[i]? = some s →
        (ofUnits units absolutes).place base k i = some p → ∀ f ∈ s.fixups, a.Settles i f ∧
          ∀ r, a.deferredReloc? i f = some r →
            Applicable p ((ofUnits units absolutes).address? base k) r.withCode := by
      intro k i a s p ha hsec hp f hf
      obtain ⟨hloc, hlen⟩ := located hs base hn hsize ha hsec hp
      have hin := ((hs a (List.mem_of_getElem? ha)).tidy s (List.mem_of_getElem? hsec)).within f hf
      exact (Assembly.resolves_iff hloc (hlen ▸ hin)).mpr (h k a ha i s hsec p hp f hf)
    refine ⟨?_, ?_⟩
    · intro a ha i s hsec f hf
      obtain ⟨k, hk⟩ := List.mem_iff_getElem?.mp ha
      obtain ⟨p, hp, -⟩ := exists_place_ofUnits base hk hsec
      exact (hboth hk hsec hp f hf).1
    · intro x hx p hp r hr
      obtain ⟨a, s, ha, hsec, hbody⟩ := mem_allSections_ofFinished.mp hx
      rw [← hbody] at hr
      obtain ⟨r', hr', rfl⟩ := List.mem_map.mp hr
      obtain ⟨f, hf, hfr⟩ := List.mem_filterMap.mp hr'
      exact (hboth ha hsec hp f hf).2 r' hfr

theorem data_relocated {k i : Nat} {a : Assembly} {s : OpenSection} (ha : units[k]? = some a)
    (hsec : a.sections[i]? = some s) {p : Placement}
    (hp : (ofUnits units absolutes).place base k i = some p) :
    writeAll (a.closed i s).data ((ofFinished units absolutes).sectionWrites base
        ⟨k, i, (a.closed i s).withCodes⟩) =
      a.completedData i p.address ((ofUnits units absolutes).address? base k) s := by
  obtain ⟨hloc, hlen⟩ := located hs base hn hsize ha hsec hp
  unfold sectionWrites
  rw [place_ofFinished hs, address?_ofFinished hs, hp]
  exact Assembly.writeAll_closed
    ((hs a (List.mem_of_getElem? ha)).tidy s (List.mem_of_getElem? hsec)) hloc hlen

theorem contents_relocated :
    contents ((ofFinished units absolutes).relocated base) =
      contents (completed units absolutes base) := by
  have hobjects : ∀ k : Nat, (ofFinished units absolutes).objects[k]? =
      units[k]?.map fun a : Assembly => a.object.withCodes := by
    simp [ofFinished]
  apply List.ext_getElem?
  intro k
  simp only [contents, relocated, mapSections, completed, List.getElem?_map, List.getElem?_mapIdx,
    Option.map_map, hobjects]
  cases ha : units[k]? with
  | none => rfl
  | some a =>
    simp only [Option.map_some, Function.comp_apply, Option.some.injEq]
    apply List.ext_getElem?
    intro i
    simp only [Object.withCodes, Assembly.object, List.getElem?_map, List.getElem?_mapIdx,
      Option.map_map]
    cases hsec : a.sections[i]? with
    | none => rfl
    | some s =>
      obtain ⟨p, hp, -⟩ : ∃ p, (ofUnits units absolutes).place base k i = some p ∧
        p.length = s.data.length := exists_place_ofUnits base ha hsec
      simp only [Option.map_some, Function.comp_apply, hp, ← data_relocated hs hn hsize ha hsec hp]
      rfl

end

/-- The image is as long as the units are before any fixup is settled. -/
theorem length_bytes_of_link_ofFinished {units : List Assembly} {absolutes : NameMap UInt32}
    (hs : ∀ a ∈ units, a.Sound) {options : LinkSettings} {image : Image}
    (h : (ofFinished units absolutes).link options = .ok image) :
    image.bytes.length = (layout (ofUnits units absolutes).objects).bytes.length := by
  rw [length_bytes_of_link (homesExist_ofFinished hs) h,
    length_bytes_congr (shape_ofFinished hs)]

/-- Units can be finished and linked when no global name is defined twice, all fixups have values
that fit, and the entry is defined. -/
theorem link_finished_iff {units : List Assembly} {absolutes : NameMap UInt32}
    (hs : ∀ a ∈ units, a.Sound) {options : LinkSettings}
    (hsize : options.base.toNat + (layout (ofUnits units absolutes).objects).bytes.length <
      0x100000000) {image : Image} :
    (∀ a ∈ units, a.AllSettle) ∧ (ofFinished units absolutes).link options = .ok image ↔
      (ofUnits units absolutes).definedNames.Nodup ∧ AllResolve units absolutes options.base ∧
      ∃ entry, (ofUnits units absolutes).entryPoint? options = some entry ∧
        image = ⟨options.base, entry,
          UInt32.ofNat (layout (ofUnits units absolutes).objects).textSize,
          (layout (completed units absolutes options.base)).bytes,
          absolutes.insertAll (globalDefinitions ((ofUnits units absolutes).place options.base) 0
            (ofUnits units absolutes).objects)⟩ := by
  rw [link_eq_ok_iff (homesExist_ofFinished hs), definedNames_ofFinished, entryPoint?_ofFinished hs,
    place_ofFinished hs, globalDefinitions_ofFinished, textSize_congr (shape_ofFinished hs)]
  constructor
  · rintro ⟨hset, hn, happ, entry, he, rfl⟩
    refine ⟨hn, (allResolve_iff hs hn hsize).mp ⟨hset, happ⟩, entry, he, ?_⟩
    rw [bytes_congr (contents_relocated hs hn hsize)]
    rfl
  · rintro ⟨hn, hres, entry, he, rfl⟩
    obtain ⟨hset, happ⟩ := (allResolve_iff hs hn hsize).mpr hres
    refine ⟨hset, hn, happ, entry, he, ?_⟩
    rw [bytes_congr (contents_relocated hs hn hsize)]
    rfl

end Linker

end Dlx
