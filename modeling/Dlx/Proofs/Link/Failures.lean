import Dlx.Proofs.Assembly.Names
import Dlx.Proofs.Link.Success

/-!
# Why a link of assembled objects fails

The linker checks what objects from files may have wrong: unknown codes, fields outside their
sections, symbols in sections that do not exist. Objects that were assembled pass these checks, since
every fixup lies in its section and every label in a section that was opened. Such a link fails for
its names or its values only.

Results:
* `duplicate_of_collect`: entering the symbols fails for a name that is defined twice.
* `missing_or_misfit`: planning a relocation with a known code and a field in its section fails for
  its symbol or its value.
* `link_assembled_failures`: what a link of assembled objects can fail for.
-/
namespace Dlx

/-- The object passes the checks that need no other object: its symbols are in sections it has, and
its relocations have known codes and fields in their sections. -/
structure Object.WellBuilt (o : Object UInt32) : Prop where
  homes : ∀ s ∈ o.symbols, ∀ i, s.home = some i → i < o.sections.length
  fields : ∀ t ∈ o.sections, ∀ r ∈ t.relocs, ∃ ty, RelocType.ofCode? r.type = some ty ∧
    r.offset.toNat + ty.rule.size ≤ t.data.length

theorem RelocType.type_rule (ty : RelocType) : ty.rule.type = ty := by cases ty <;> rfl

namespace Linker

/-- A name is needed, as the entry or by a relocation, and has no address there. -/
def Missing (l : Linker) (options : LinkSettings) (name : String) : Prop :=
  options.entry = some name ∧ name ∉ l.definedNames ∨
    ∃ s ∈ allSections l.objects, ∃ r ∈ s.body.relocs,
      r.symbol = name ∧ l.address? options.base s.object name = none

/-- A relocation of a type has a value that does not fit its field. -/
def Misfit (l : Linker) (base : UInt32) (ty : RelocType) (v : Int64) : Prop :=
  ∃ s ∈ allSections l.objects, ∃ r ∈ s.body.relocs, ∃ p symbol,
    l.place base s.object s.index = some p ∧ l.address? base s.object r.symbol = some symbol ∧
    r.type = ty.code ∧ v = (relocValue ty symbol (p.address + r.offset) r.addend).toInt64 ∧
    ¬ ty.Fits (ty.target symbol (p.address + r.offset) r.addend)

/-! ## Entering symbols -/

theorem duplicate_of_enterSymbol {place : Nat → Option Placement} {s : Symbol}
    (h : HomesPlaced place [s]) {g l : NameMap UInt32} {e : LinkError}
    (he : enterSymbol place g l s = .error e) :
    e = .duplicateSymbol s.name ∧ (g.find? s.name).isSome ∧
      (definitions true place [s]).map (·.1) = [s.name] := by
  unfold enterSymbol at he
  cases hh : s.home with
  | none => simp [hh] at he
  | some i =>
    obtain ⟨p, hp⟩ := Option.isSome_iff_exists.mp (h s List.mem_cons_self i hh)
    simp only [hh, hp] at he
    cases hg : s.isGlobal with
    | false => simp [hg] at he
    | true =>
      simp only [hg, Bool.not_true, Bool.false_eq_true, if_false] at he
      split at he
      · next hcontains =>
        cases he
        exact ⟨rfl, hcontains, by simp [definitions, symbolAddress?, hh, hp, hg]⟩
      · cases he

/-- The names of a table are among those that were entered. -/
theorem mem_of_find?_insertAll {g : NameMap UInt32} {known : List String}
    (hg : ∀ n, (g.find? n).isSome → n ∈ known) (ds : List (String × UInt32)) (n : String)
    (hn : ((g.insertAll ds).find? n).isSome) : n ∈ known ++ ds.map (·.1) := by
  by_contra hnot
  rw [List.mem_append, not_or] at hnot
  have hnone : g.find? n = none := by
    rw [← Option.not_isSome_iff_eq_none]
    exact fun h => hnot.1 (hg n h)
  rw [(NameMap.find?_insertAll_eq_none_iff g ds n).mpr ⟨hnot.2, hnone⟩] at hn
  cases hn

/-- `known` are the names that were entered before. -/
theorem duplicate_of_enterSymbols {place : Nat → Option Placement} {symbols : List Symbol}
    (h : HomesPlaced place symbols) {g l : NameMap UInt32} {known : List String}
    (hg : ∀ n, (g.find? n).isSome → n ∈ known) {e : LinkError}
    (he : enterSymbols place symbols g l = .error e) :
    ∃ name, e = .duplicateSymbol name ∧
      2 ≤ (known ++ (definitions true place symbols).map (·.1)).count name := by
  induction symbols generalizing g l known with
  | nil => cases he
  | cons s rest ih =>
    have hs : HomesPlaced place [s] := fun t ht => h t (by simp_all)
    have hrest : HomesPlaced place rest := fun t ht => h t (List.mem_cons_of_mem _ ht)
    rw [definitions_cons, List.map_append, ← List.append_assoc]
    rcases Except.bind_eq_error_iff.mp he with he | ⟨⟨g', l'⟩, hok, he⟩
    · obtain ⟨rfl, hin, hnames⟩ := duplicate_of_enterSymbol hs he
      refine ⟨s.name, rfl, ?_⟩
      have hknown := List.count_pos_iff.mpr (hg s.name hin)
      rw [hnames, List.count_append, List.count_append, List.count_singleton_self]
      omega
    · obtain ⟨-, rfl, -⟩ := (enterSymbol_eq_ok_iff hs).mp hok
      exact ih hrest (mem_of_find?_insertAll hg _) he

theorem duplicate_of_collect {place : Nat → Nat → Option Placement} {k : Nat}
    {objects : List (Object UInt32)}
    (h : ∀ i o, objects[i]? = some o → HomesPlaced (place (k + i)) o.symbols)
    {g : NameMap UInt32} {known : List String} (hg : ∀ n, (g.find? n).isSome → n ∈ known)
    {e : LinkError} (he : collect place k objects g = .error e) :
    ∃ name, e = .duplicateSymbol name ∧
      2 ≤ (known ++ (globalDefinitions place k objects).map (·.1)).count name := by
  induction objects generalizing k g known with
  | nil => cases he
  | cons o rest ih =>
    have ho : HomesPlaced (place k) o.symbols := h 0 o rfl
    have hdefs : globalDefinitions place k (o :: rest) =
        definitions true (place k) o.symbols ++ globalDefinitions place (k + 1) rest := rfl
    rw [hdefs, List.map_append, ← List.append_assoc]
    rcases Except.bind_eq_error_iff.mp he with he | ⟨⟨g', l'⟩, hok, he⟩
    · obtain ⟨name, rfl, hcount⟩ := duplicate_of_enterSymbols ho hg he
      refine ⟨name, rfl, ?_⟩
      rw [List.count_append]
      omega
    · obtain ⟨-, rfl, -⟩ := (enterSymbols_eq_ok_iff ho).mp hok
      exact ih (homesPlaced_tail h) (mem_of_find?_insertAll hg _)
        (Except.bind_pure_eq_error_iff.mp he)

end Linker

/-! ## Planning -/

theorem RelocType.ensureFits_eq_error {ty : RelocType} {v : UInt64} {e : LinkError}
    (h : ty.ensureFits v = .error e) :
    e = .patch (.outOfRange ty v.toInt64) ∧ ¬ ty.Fits v.toInt64.toInt := by
  have hnot : ¬ ty.Fits v.toInt64.toInt := by
    rw [← ensureFits_eq_ok_iff, h]
    nofun
  refine ⟨?_, hnot⟩
  unfold ensureFits FieldRule.fieldValue at h
  dsimp only at h
  rw [if_neg (fun haccepts => hnot ((accepts_iff_fits ty v).mp haccepts)), type_rule] at h
  exact (Except.error.inj h).symm

theorem missing_or_misfit {p : Placement} {lookup : String → Option UInt32} {r : Reloc UInt32}
    {ty : RelocType} (hty : RelocType.ofCode? r.type = some ty)
    (hin : r.offset.toNat + ty.rule.size ≤ p.length) {e : LinkError}
    (h : planReloc p lookup r = .error e) :
    (lookup r.symbol = none ∧ e = .undefinedSymbol r.symbol) ∨
      ∃ symbol, lookup r.symbol = some symbol ∧
        e = .patch (.outOfRange ty
          (relocValue ty symbol (p.address + r.offset) r.addend).toInt64) ∧
        ¬ ty.Fits (ty.target symbol (p.address + r.offset) r.addend) := by
  unfold planReloc relocTypeAt at h
  rw [hty] at h
  simp only [bind, Except.bind, Nat.not_lt.mpr hin, if_false] at h
  split at h
  · cases h
  · cases hs : lookup r.symbol with
    | none =>
      rw [hs] at h
      exact .inl ⟨rfl, (Except.error.inj h).symm⟩
    | some symbol =>
      rw [hs] at h
      refine .inr ⟨symbol, rfl, ?_⟩
      rw [← fits_relocValue_iff]
      apply RelocType.ensureFits_eq_error
      dsimp only at h
      split at h
      · next e' he' =>
        rw [he', Except.error.inj h]
      · cases h

theorem exists_of_plan_error {p : Placement} {lookup : String → Option UInt32}
    {relocs : List (Reloc UInt32)} {e : LinkError} (h : plan p lookup relocs = .error e) :
    ∃ r ∈ relocs, planReloc p lookup r = .error e := by
  induction relocs with
  | nil => cases h
  | cons r rest ih =>
    rcases Except.bind_eq_error_iff.mp h with h | ⟨_, -, h⟩
    · exact ⟨r, List.mem_cons_self, h⟩
    · obtain ⟨r', hr', h⟩ := ih (Except.bind_pure_eq_error_iff.mp h)
      exact ⟨r', List.mem_cons_of_mem _ hr', h⟩

namespace Linker

theorem planSections_cons_error {place : Nat → Option Placement} {lookup : String → Option UInt32}
    {index : Nat} {s : Section UInt32} {rest : List (Section UInt32)} {e : LinkError}
    (h : planSections place lookup index (s :: rest) = .error e) :
    (∃ p, place index = some p ∧ plan p lookup s.relocs = .error e) ∨
      planSections place lookup (index + 1) rest = .error e := by
  rw [planSections] at h
  cases hp : place index with
  | none =>
    rw [hp] at h
    exact .inr (Except.bind_pure_eq_error_iff.mp h)
  | some p =>
    rw [hp] at h
    rcases Except.bind_eq_error_iff.mp h with h | ⟨_, -, h⟩
    · exact .inl ⟨p, rfl, h⟩
    · exact .inr (Except.bind_pure_eq_error_iff.mp h)

theorem exists_of_planSections_error {place : Nat → Option Placement}
    {lookup : String → Option UInt32} {index : Nat} {sections : List (Section UInt32)}
    {e : LinkError} (h : planSections place lookup index sections = .error e) :
    ∃ x ∈ sections.zipIdx index, ∃ p, place x.2 = some p ∧
      ∃ r ∈ x.1.relocs, planReloc p lookup r = .error e := by
  induction sections generalizing index with
  | nil => cases h
  | cons s rest ih =>
    rw [List.zipIdx_cons]
    rcases planSections_cons_error h with ⟨p, hp, h⟩ | h
    · exact ⟨(s, index), List.mem_cons_self, p, hp, exists_of_plan_error h⟩
    · obtain ⟨x, hx, h⟩ := ih h
      exact ⟨x, List.mem_cons_of_mem _ hx, h⟩

theorem exists_of_planObjects_error {place : Nat → Nat → Option Placement} {a : Addresses} {k : Nat}
    {objects : List (Object UInt32 × NameMap UInt32)} {e : LinkError}
    (h : planObjects place a k objects = .error e) :
    ∃ x ∈ objects.zipIdx k, ∃ y ∈ x.1.1.sections.zipIdx, ∃ p, place x.2 y.2 = some p ∧
      ∃ r ∈ y.1.relocs, planReloc p (a.lookup x.1.2) r = .error e := by
  induction objects generalizing k with
  | nil => cases h
  | cons x rest ih =>
    obtain ⟨o, locals⟩ := x
    rw [List.zipIdx_cons]
    rcases Except.bind_eq_error_iff.mp h with h | ⟨_, -, h⟩
    · exact ⟨((o, locals), k), List.mem_cons_self, exists_of_planSections_error h⟩
    · obtain ⟨x, hx, h⟩ := ih (Except.bind_pure_eq_error_iff.mp h)
      exact ⟨x, List.mem_cons_of_mem _ hx, h⟩

/-- With the tables of a link, the relocation that stops the planning is that of a section. -/
theorem exists_of_planned_error {l : Linker} {base : UInt32} (hh : HomesExist l.objects)
    {a : Addresses} (ha : collect (l.place base) 0 l.objects l.absolutes = .ok a) {e : LinkError}
    (h : planObjects (l.place base) a 0 (l.objects.zip a.locals) = .error e) :
    ∃ s ∈ allSections l.objects, ∃ p, l.place base s.object s.index = some p ∧
      ∃ r ∈ s.body.relocs, planReloc p (l.address? base s.object) r = .error e := by
  obtain ⟨⟨⟨o, locals⟩, k⟩, hx, ⟨t, i⟩, hy, p, hp, r, hr, he⟩ := exists_of_planObjects_error h
  obtain ⟨ho, hlocals⟩ := List.getElem?_zip_eq_some.mp (List.mem_zipIdx_iff_getElem?.mp hx)
  have hmem : ⟨k, i, t⟩ ∈ allSections l.objects :=
    mem_allSections.mpr ⟨o, ho, List.mem_zipIdx_iff_getElem?.mp hy⟩
  rw [funext (lookup_eq_address? hh ha hlocals)] at he
  exact ⟨⟨k, i, t⟩, hmem, p, hp, r, hr, he⟩

/-! ## Linking -/

/-- A link of objects whose symbols are in their sections stops at a name that is defined twice, at
a relocation or at its entry. -/
theorem link_error_cases {l : Linker} (hh : HomesExist l.objects) {options : LinkSettings}
    {e : LinkError} (h : l.link options = .error e) :
    (∃ name, e = .duplicateSymbol name ∧ 2 ≤ l.definedNames.count name) ∨
      (∃ s ∈ allSections l.objects, ∃ p, l.place options.base s.object s.index = some p ∧
        ∃ r ∈ s.body.relocs, planReloc p (l.address? options.base s.object) r = .error e) ∨
      ∃ name, options.entry = some name ∧ name ∉ l.definedNames ∧ e = .undefinedSymbol name := by
  have hplaced := homesPlaced_of_homesExist hh options.base
  unfold link at h
  rcases Except.bind_eq_error_iff.mp h with h | ⟨a, ha, h⟩
  · have hknown : ∀ n, (l.absolutes.find? n).isSome → n ∈ l.absolutes.entries.map (·.1) :=
      fun n => (NameMap.find?_isSome_iff l.absolutes n).mp
    obtain ⟨name, rfl, hcount⟩ := duplicate_of_collect hplaced hknown h
    rw [names_globalDefinitions hplaced] at hcount
    exact .inl ⟨name, rfl, hcount⟩
  rcases Except.bind_eq_error_iff.mp h with h | ⟨patches, hpatches, h⟩
  · exact .inr (.inl (exists_of_planned_error hh ha h))
  rcases Except.bind_eq_error_iff.mp h with h | ⟨bytes, -, h⟩
  · -- planning has checked what is written
    obtain ⟨happ, rfl⟩ := (plan_of_collect hh ha).mp hpatches
    rw [applyPatches_planned happ] at h
    cases h
  exact .inr (.inr (entryAddress_eq_error hh ha (Except.bind_pure_eq_error_iff.mp h)))

/-- A link of objects that are well built fails for a name or a value. -/
theorem failure_of_link {l : Linker} (hw : ∀ o ∈ l.objects, o.WellBuilt) {options : LinkSettings}
    {e : LinkError} (h : l.link options = .error e) :
    (∃ name, e = .undefinedSymbol name ∧ l.Missing options name) ∨
      (∃ name, e = .duplicateSymbol name ∧ 2 ≤ l.definedNames.count name) ∨
      ∃ ty v, e = .patch (.outOfRange ty v) ∧ l.Misfit options.base ty v := by
  have hh : HomesExist l.objects := fun o ho => (hw o ho).homes
  rcases link_error_cases hh h with
    hduplicate | ⟨s, hs, p, hp, r, hr, he⟩ | ⟨name, hentry, hname, rfl⟩
  · exact .inr (.inl hduplicate)
  · obtain ⟨o, ho, hos⟩ := mem_allSections.mp hs
    obtain ⟨q, hq, hlen⟩ := exists_placement options.base ho hos
    obtain ⟨ty, hty, hin⟩ :=
      (hw o (List.mem_of_getElem? ho)).fields _ (List.mem_of_getElem? hos) r hr
    rw [← place, hp, Option.some.injEq] at hq
    rw [← hlen, ← hq] at hin
    rcases missing_or_misfit hty hin he with ⟨hnone, rfl⟩ | ⟨symbol, hsymbol, rfl, hnot⟩
    · exact .inl ⟨_, rfl, .inr ⟨s, hs, r, hr, rfl, hnone⟩⟩
    · exact .inr (.inr ⟨ty, _, rfl, s, hs, r, hr, p, symbol, hp, hsymbol,
        RelocType.ofCode?_eq_some_iff.mp hty, rfl, hnot⟩)
  · exact .inl ⟨name, rfl, .inl ⟨hentry, hname⟩⟩

end Linker

/-- What an assembly becomes passes the checks of the linker. -/
theorem Assembly.Sound.wellBuilt {a : Assembly} (ha : a.Sound) : a.object.withCodes.WellBuilt := by
  constructor
  case homes =>
    intro s hs i hi
    have hlt := ha.homes_object s hs i hi
    simpa [Object.withCodes] using hlt
  case fields =>
    intro t ht r hr
    obtain ⟨u, hu, rfl⟩ := List.mem_map.mp ht
    obtain ⟨i, s, hs, rfl⟩ := Assembly.mem_sections_object hu
    obtain ⟨r, hmem, rfl⟩ := List.mem_map.mp hr
    obtain ⟨f, hf, hreloc⟩ := List.mem_filterMap.mp hmem
    obtain ⟨hoffset, hsize⟩ := Assembly.place_of_deferredReloc? hreloc
    have htidy := ha.tidy s (List.mem_of_getElem? hs)
    refine ⟨r.type, RelocType.ofCode?_code r.type, ?_⟩
    change r.offset.toNat + r.type.rule.size ≤ (a.closed i s).data.length
    rw [hoffset, hsize, Assembly.length_closed htidy]
    exact htidy.within f hf

namespace Linker

/-- A link of assembled objects succeeds, or fails for a name that is missing, a name that is defined
twice or a value that does not fit. -/
theorem link_assembled_failures (units : List (Bool × List Assembly.Operation))
    (objects : List (Object RelocType))
    (hfinish : units.mapM (fun u => ((Assembly.start u.1).run u.2).finish) = .ok objects)
    (absolutes : NameMap UInt32) (options : LinkSettings) :
    let l := Linker.mk (objects.map Object.withCodes) absolutes
    match l.link options with
    | .ok _ => True
    | .error (.undefinedSymbol name) => l.Missing options name
    | .error (.duplicateSymbol name) => 2 ≤ l.definedNames.count name
    | .error (.patch (.outOfRange ty v)) => l.Misfit options.base ty v
    | .error _ => False := by
  intro l
  have hs : ∀ a ∈ units.map (fun u => (Assembly.start u.1).run u.2), a.Sound := by
    intro a ha
    obtain ⟨u, -, rfl⟩ := List.mem_map.mp ha
    exact (Assembly.run_reaches _ _).sound (Assembly.sound_start _)
  obtain ⟨-, hobjects⟩ := (Assembly.mapM_finish_eq_ok_iff hs).mp (List.mapM_map.trans hfinish)
  have hw : ∀ o ∈ l.objects, o.WellBuilt := by
    intro o ho
    obtain ⟨u, hu, rfl⟩ := List.mem_map.mp ho
    rw [← hobjects] at hu
    obtain ⟨a, ha, rfl⟩ := List.mem_map.mp hu
    exact (hs a ha).wellBuilt
  cases h : l.link options with
  | ok image => trivial
  | error e =>
    rcases failure_of_link hw h with ⟨name, rfl, hcause⟩ | ⟨name, rfl, hcause⟩ | ⟨ty, v, rfl, hcause⟩ <;>
      exact hcause

/-- A call of a function that no unit has. -/
def strayCall : List (Bool × List Assembly.Operation) :=
  [(true, [.label "main", .inst ⟨.jal, [.expr (.sym "f")]⟩, .value (.sym "main") 4])]

theorem link_assembled_failures_strayCall :
    ∃ objects, strayCall.mapM (fun u => ((Assembly.start u.1).run u.2).finish) = .ok objects ∧
      (Linker.mk (objects.map Object.withCodes) .empty).link ⟨0x1000, none⟩ =
        .error (.undefinedSymbol "f") ∧
      (Linker.mk (objects.map Object.withCodes) .empty).Missing ⟨0x1000, none⟩ "f" := by
  have hbuilt : ∃ objects,
      strayCall.mapM (fun u => ((Assembly.start u.1).run u.2).finish) = .ok objects ∧
      (Linker.mk (objects.map Object.withCodes) .empty).link ⟨0x1000, none⟩ =
        .error (.undefinedSymbol "f") :=
    ⟨_, rfl, rfl⟩
  obtain ⟨objects, hfinish, hlink⟩ := hbuilt
  have hcause := link_assembled_failures strayCall objects hfinish .empty ⟨0x1000, none⟩
  dsimp only at hcause
  rw [hlink] at hcause
  exact ⟨objects, hfinish, hlink, hcause⟩

end Linker

end Dlx
