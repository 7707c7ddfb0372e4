import Dlx.Proofs.Link.Layout
import Dlx.Proofs.NameMap
import Dlx.Proofs.Patch

/-!
# What names stand for in a link

While the symbols of the objects are entered, the table of global names and one table of local names
per object grow step by step. Here the tables are said at once: a name stands for the last address
it was given, and entering succeeds when no global name is given twice.

Results:
* `collect_eq_ok_iff`: when the symbols of all objects can be entered, and the tables this makes.
* `lookup_eq_address?`: in those tables a name of an object stands for `Linker.address?`.
-/
namespace Dlx

namespace Linker

/-! ## Definitions -/

/-- The address of a symbol, if its object defines it. -/
def symbolAddress? (place : Nat → Option Placement) (s : Symbol) : Option UInt32 :=
  s.home.bind fun i => (place i).map fun p => p.address + s.value

/-- The names that symbols define with a binding, each with its address. -/
def definitions (isGlobal : Bool) (place : Nat → Option Placement) (symbols : List Symbol) :
    List (String × UInt32) :=
  symbols.filterMap fun s =>
    if s.isGlobal = isGlobal then (symbolAddress? place s).map (s.name, ·) else none

/-- The names that objects define for all, with the objects counted from `k` on. -/
def globalDefinitions (place : Nat → Nat → Option Placement) (k : Nat)
    (objects : List (Object UInt32)) : List (String × UInt32) :=
  (objects.zipIdx k).flatMap fun (o, i) => definitions true (place i) o.symbols

/-- The tables of local names, with the objects counted from `k` on. -/
def localTables (place : Nat → Nat → Option Placement) (k : Nat) (objects : List (Object UInt32)) :
    List (NameMap UInt32) :=
  (objects.zipIdx k).map fun (o, i) => .ofList (definitions false (place i) o.symbols)

/-- The sections that symbols name are placed. -/
def HomesPlaced (place : Nat → Option Placement) (symbols : List Symbol) : Prop :=
  ∀ s ∈ symbols, ∀ i, s.home = some i → (place i).isSome

theorem homesPlaced_tail {place : Nat → Nat → Option Placement} {k : Nat} {o : Object UInt32}
    {rest : List (Object UInt32)}
    (h : ∀ i o', (o :: rest)[i]? = some o' → HomesPlaced (place (k + i)) o'.symbols) :
    ∀ i o', rest[i]? = some o' → HomesPlaced (place (k + 1 + i)) o'.symbols := by
  intro i o' hi
  have := h (i + 1) o' hi
  rwa [Nat.add_assoc, Nat.add_comm 1]

theorem enterSymbol_eq_ok_iff {place : Nat → Option Placement} {s : Symbol}
    (h : HomesPlaced place [s]) {g l g' l' : NameMap UInt32} :
    enterSymbol place g l s = .ok (g', l') ↔
      (∀ n ∈ (definitions true place [s]).map (·.1), g.find? n = none) ∧
        g.insertAll (definitions true place [s]) = g' ∧
        l.insertAll (definitions false place [s]) = l' := by
  unfold enterSymbol
  cases hh : s.home with
  | none => simp [definitions, symbolAddress?, hh, NameMap.insertAll]
  | some i =>
    obtain ⟨p, hp⟩ := Option.isSome_iff_exists.mp (h s List.mem_cons_self i hh)
    simp only [hp]
    cases hg : s.isGlobal with
    | false => simp [definitions, symbolAddress?, hh, hp, hg, NameMap.insertAll]
    | true =>
      cases hf : g.find? s.name with
      | none => simp [definitions, symbolAddress?, hh, hp, hg, hf, NameMap.contains, NameMap.insertAll]
      | some a => simp [definitions, symbolAddress?, hh, hp, hg, hf, NameMap.contains]

theorem definitions_cons (isGlobal : Bool) (place : Nat → Option Placement) (s : Symbol)
    (symbols : List Symbol) :
    definitions isGlobal place (s :: symbols) =
      definitions isGlobal place [s] ++ definitions isGlobal place symbols :=
  List.filterMap_append (l := [s])

/-- New names that are not in a table, and then more of them. -/
theorem fresh_append {g : NameMap UInt32} {ds es : List (String × UInt32)} :
    (((ds ++ es).map (·.1)).Nodup ∧ ∀ n ∈ (ds ++ es).map (·.1), g.find? n = none) ↔
      ((ds.map (·.1)).Nodup ∧ ∀ n ∈ ds.map (·.1), g.find? n = none) ∧
      ((es.map (·.1)).Nodup ∧ ∀ n ∈ es.map (·.1), (g.insertAll ds).find? n = none) := by
  simp only [NameMap.find?_insertAll_eq_none_iff, List.map_append, List.nodup_append,
    List.mem_append]
  constructor
  · rintro ⟨⟨hd, he, hde⟩, hf⟩
    exact ⟨⟨hd, fun n hn => hf n (.inl hn)⟩, he,
      fun n hn => ⟨fun hn' => hde n hn' n hn rfl, hf n (.inr hn)⟩⟩
  · rintro ⟨⟨hd, hdf⟩, he, hef⟩
    refine ⟨⟨hd, he, fun n hn m hm hnm => (hef m hm).1 (hnm ▸ hn)⟩, ?_⟩
    rintro n (hn | hn)
    · exact hdf n hn
    · exact (hef n hn).2

theorem nodup_definitions_one (isGlobal : Bool) (place : Nat → Option Placement) (s : Symbol) :
    ((definitions isGlobal place [s]).map (·.1)).Nodup := by
  rw [definitions, List.filterMap_cons]
  split <;> simp

theorem enterSymbols_eq_ok_iff {place : Nat → Option Placement} {symbols : List Symbol}
    (h : HomesPlaced place symbols) {g l g' l' : NameMap UInt32} :
    enterSymbols place symbols g l = .ok (g', l') ↔
      (((definitions true place symbols).map (·.1)).Nodup ∧
        ∀ n ∈ (definitions true place symbols).map (·.1), g.find? n = none) ∧
      g.insertAll (definitions true place symbols) = g' ∧
      l.insertAll (definitions false place symbols) = l' := by
  induction symbols generalizing g l with
  | nil => simp [enterSymbols, definitions, NameMap.insertAll]
  | cons s rest ih =>
    have hs : HomesPlaced place [s] := fun t ht => h t (by simp_all)
    have hrest : HomesPlaced place rest := fun t ht => h t (List.mem_cons_of_mem _ ht)
    rw [definitions_cons true, definitions_cons false, fresh_append, NameMap.insertAll_append,
      NameMap.insertAll_append]
    simp only [enterSymbols, Except.bind_eq_ok_iff, Prod.exists, enterSymbol_eq_ok_iff hs, ih hrest]
    constructor
    · rintro ⟨_, _, ⟨hf, rfl, rfl⟩, hrest, hg, hl⟩
      exact ⟨⟨⟨nodup_definitions_one _ _ _, hf⟩, hrest⟩, hg, hl⟩
    · rintro ⟨⟨⟨-, hf⟩, hrest⟩, hg, hl⟩
      exact ⟨_, _, ⟨hf, rfl, rfl⟩, hrest, hg, hl⟩

theorem collect_eq_ok_iff {place : Nat → Nat → Option Placement} {k : Nat}
    {objects : List (Object UInt32)}
    (h : ∀ i o, objects[i]? = some o → HomesPlaced (place (k + i)) o.symbols)
    {g : NameMap UInt32} {a : Addresses} :
    collect place k objects g = .ok a ↔
      (((globalDefinitions place k objects).map (·.1)).Nodup ∧
        ∀ n ∈ (globalDefinitions place k objects).map (·.1), g.find? n = none) ∧
      a = ⟨g.insertAll (globalDefinitions place k objects), localTables place k objects⟩ := by
  induction objects generalizing k g a with
  | nil => simp [collect, globalDefinitions, localTables, NameMap.insertAll, eq_comm]
  | cons o rest ih =>
    have ho : HomesPlaced (place k) o.symbols := h 0 o rfl
    have hrest := homesPlaced_tail h
    have hdefs : globalDefinitions place k (o :: rest) =
        definitions true (place k) o.symbols ++ globalDefinitions place (k + 1) rest := rfl
    rw [hdefs, fresh_append, NameMap.insertAll_append]
    simp only [collect, Except.bind_eq_ok_iff, Prod.exists, enterSymbols_eq_ok_iff ho, ih hrest]
    constructor
    · rintro ⟨_, _, ⟨hf, rfl, rfl⟩, _, ⟨hf', rfl⟩, hr⟩
      exact ⟨⟨hf, hf'⟩, (Except.ok.inj hr).symm⟩
    · rintro ⟨⟨hf, hf'⟩, rfl⟩
      exact ⟨_, _, ⟨hf, rfl, rfl⟩, _, ⟨hf', rfl⟩, rfl⟩

/-- A symbol is entered only if its section is placed. -/
theorem homesPlaced_of_enterSymbols {place : Nat → Option Placement} {symbols : List Symbol}
    {g l : NameMap UInt32} {r : NameMap UInt32 × NameMap UInt32}
    (h : enterSymbols place symbols g l = .ok r) : HomesPlaced place symbols := by
  induction symbols generalizing g l with
  | nil => intro s hs; cases hs
  | cons s rest ih =>
    simp only [enterSymbols, Except.bind_eq_ok_iff, Prod.exists] at h
    obtain ⟨g', l', hs, hrest⟩ := h
    intro t ht i hi
    rcases List.mem_cons.mp ht with rfl | ht
    · cases hp : place i with
      | some p => rfl
      | none => simp [enterSymbol, hi, hp] at hs
    · exact ih hrest t ht i hi

theorem homesPlaced_of_collect {place : Nat → Nat → Option Placement} {k : Nat}
    {objects : List (Object UInt32)} {g : NameMap UInt32} {a : Addresses}
    (h : collect place k objects g = .ok a) :
    ∀ i o, objects[i]? = some o → HomesPlaced (place (k + i)) o.symbols := by
  induction objects generalizing k g a with
  | nil => intro i o ho; cases ho
  | cons o rest ih =>
    simp only [collect, Except.bind_eq_ok_iff, Prod.exists] at h
    obtain ⟨g', locals, ho, more, hrest, -⟩ := h
    intro i o' ho'
    cases i with
    | zero =>
      cases ho'
      exact homesPlaced_of_enterSymbols ho
    | succ i =>
      rw [← Nat.add_assoc, Nat.add_right_comm]
      exact ih hrest i o' ho'

/-! ## The address of a name -/

/-- Where a section of an object lies in the image of a link at `base`. -/
def place (l : Linker) (base : UInt32) (k i : Nat) : Option Placement :=
  (layout l.objects).placement? base k i

/-- The address that a name has for all objects: of the object that defines it, or a fixed one. -/
def globalAddress? (l : Linker) (base : UInt32) (name : String) : Option UInt32 :=
  ((globalDefinitions (l.place base) 0 l.objects).reverse.lookup name).or (l.absolutes.find? name)

/-- The address that a name has in the object with an index. Its own local symbols come first; if
several have the name, the last one counts. -/
def address? (l : Linker) (base : UInt32) (k : Nat) (name : String) : Option UInt32 :=
  (l.objects[k]?.bind fun o =>
    (definitions false (l.place base k) o.symbols).reverse.lookup name).or
      (l.globalAddress? base name)

/-- Every symbol that is in a section is in one that its object has. -/
def HomesExist (objects : List (Object UInt32)) : Prop :=
  ∀ o ∈ objects, ∀ s ∈ o.symbols, ∀ i, s.home = some i → i < o.sections.length

theorem exists_placement {objects : List (Object UInt32)} {k i : Nat} {o : Object UInt32}
    {s : Section UInt32} (base : UInt32) (ho : objects[k]? = some o)
    (hs : o.sections[i]? = some s) :
    ∃ p, (layout objects).placement? base k i = some p ∧ p.length = s.data.length := by
  obtain ⟨p, hp, hps⟩ := exists_placed ho hs
  refine ⟨p.placement base, placement?_eq_some_iff.mpr ⟨p, hp, ?_, rfl⟩, ?_⟩
  · rw [hps]; rfl
  · rw [Placed.placement, hps]

theorem homesPlaced_of_homesExist {l : Linker} (h : HomesExist l.objects) (base : UInt32) :
    ∀ k o, l.objects[k]? = some o → HomesPlaced (l.place base (0 + k)) o.symbols := by
  intro k o ho s hs i hi
  have hlt := h o (List.mem_of_getElem? ho) s hs i hi
  obtain ⟨p, hp, -⟩ := exists_placement base ho (List.getElem?_eq_getElem hlt)
  rw [Nat.zero_add, place, hp]
  rfl

theorem homesExist_of_collect {l : Linker} {base : UInt32} {a : Addresses}
    (h : collect (l.place base) 0 l.objects l.absolutes = .ok a) : HomesExist l.objects := by
  intro o ho s hs i hi
  obtain ⟨k, hk⟩ := List.getElem?_of_mem ho
  obtain ⟨p, hp⟩ := Option.isSome_iff_exists.mp (homesPlaced_of_collect h k o hk s hs i hi)
  -- only a section that the object has is placed under its index
  obtain ⟨q, hq, hkey, -⟩ := placement?_eq_some_iff.mp hp
  obtain ⟨o', ho', hsect⟩ := mem_allSections.mp (mem_layout.mp ⟨q, hq, rfl⟩)
  simp only [SectionAt.key, Nat.zero_add, Prod.mk.injEq] at hkey
  rw [hkey.1, hk, Option.some.injEq] at ho'
  rw [ho', ← hkey.2]
  exact (List.getElem?_eq_some_iff.mp hsect).1

/-- The names that are defined for all: the fixed ones, and the global symbols of the objects that
have a section. -/
def definedNames (l : Linker) : List String :=
  l.absolutes.entries.map (·.1) ++
    l.objects.flatMap fun o => (o.symbols.filter fun s => s.isGlobal && s.home.isSome).map (·.name)

theorem names_definitions {place : Nat → Option Placement} {symbols : List Symbol}
    (h : HomesPlaced place symbols) :
    (definitions true place symbols).map (·.1) =
      (symbols.filter fun s => s.isGlobal && s.home.isSome).map (·.name) := by
  induction symbols with
  | nil => rfl
  | cons s rest ih =>
    have ih := ih fun t ht => h t (List.mem_cons_of_mem _ ht)
    show _ = (([s] ++ rest).filter fun s => s.isGlobal && s.home.isSome).map (·.name)
    rw [definitions_cons, List.map_append, ih, List.filter_append, List.map_append]
    congr 1
    cases hh : s.home with
    | none => simp [definitions, symbolAddress?, hh]
    | some i =>
      obtain ⟨p, hp⟩ := Option.isSome_iff_exists.mp (h s List.mem_cons_self i hh)
      cases hg : s.isGlobal <;> simp [definitions, symbolAddress?, hh, hp, hg]

theorem names_globalDefinitions {place : Nat → Nat → Option Placement} {k : Nat}
    {objects : List (Object UInt32)}
    (h : ∀ i o, objects[i]? = some o → HomesPlaced (place (k + i)) o.symbols) :
    (globalDefinitions place k objects).map (·.1) =
      objects.flatMap fun o =>
        (o.symbols.filter fun s => s.isGlobal && s.home.isSome).map (·.name) := by
  induction objects generalizing k with
  | nil => rfl
  | cons o rest ih =>
    have hrest := homesPlaced_tail h
    rw [List.flatMap_cons, ← ih hrest, ← names_definitions (h 0 o rfl)]
    exact List.map_append

/-- Where every name has one entry, the order of the entries does not matter. -/
theorem lookup_reverse_of_mem {entries : List (String × UInt32)} {name : String} {address : UInt32}
    (hn : (entries.map (·.1)).Nodup) (h : (name, address) ∈ entries) :
    entries.reverse.lookup name = some address := by
  obtain ⟨pre, post, rfl⟩ := List.append_of_mem h
  refine List.lookup_eq_some_iff.mpr ⟨post.reverse, pre.reverse, by simp, ?_⟩
  intro e he
  rw [List.map_append, List.map_cons] at hn
  have hcons := (List.nodup_append.mp hn).2.1
  have hne := (List.nodup_cons.mp hcons).1
  rw [bne_iff_ne]
  rintro rfl
  exact hne (List.mem_map.mpr ⟨e, List.mem_reverse.mp he, rfl⟩)

theorem mem_of_lookup_reverse {entries : List (String × UInt32)} {name : String} {address : UInt32}
    (h : entries.reverse.lookup name = some address) : (name, address) ∈ entries := by
  obtain ⟨pre, post, hsplit, -⟩ := List.lookup_eq_some_iff.mp h
  have hmem : (name, address) ∈ entries.reverse := by simp [hsplit]
  exact List.mem_reverse.mp hmem

theorem mem_definitions {isGlobal : Bool} {place : Nat → Option Placement} {symbols : List Symbol}
    {name : String} {address : UInt32} :
    (name, address) ∈ definitions isGlobal place symbols ↔
      ∃ s ∈ symbols, s.isGlobal = isGlobal ∧ s.name = name ∧ symbolAddress? place s = some address := by
  unfold definitions
  rw [List.mem_filterMap]
  refine exists_congr fun s => and_congr_right fun _ => ?_
  by_cases hg : s.isGlobal = isGlobal
  · simp only [hg, if_true, true_and, Option.map_eq_some_iff, Prod.mk.injEq]
    exact ⟨fun ⟨a, ha, hn, he⟩ => ⟨hn, he ▸ ha⟩, fun ⟨hn, ha⟩ => ⟨address, ha, hn, rfl⟩⟩
  · simp [hg]

theorem nodup_names_definitions {symbols : List Symbol} (h : (symbols.map (·.name)).Nodup)
    (isGlobal : Bool) (place : Nat → Option Placement) :
    ((definitions isGlobal place symbols).map (·.1)).Nodup := by
  rw [List.Nodup, List.pairwise_map] at h ⊢
  refine List.Pairwise.filterMap _ ?_ h
  intro s t hst d hd e he
  have hname : ∀ {s : Symbol} {d : String × UInt32},
      (if s.isGlobal = isGlobal then (symbolAddress? place s).map (s.name, ·) else none) = some d →
      d.1 = s.name := by
    intro s d hd
    split at hd
    · obtain ⟨a, -, rfl⟩ := Option.map_eq_some_iff.mp hd
      rfl
    · cases hd
  rwa [hname hd, hname he]

section
variable {l : Linker} {base : UInt32} (hh : HomesExist l.objects)

variable (base) in
include hh in
theorem mem_definedNames_iff {name : String} :
    name ∈ l.definedNames ↔ (l.globalAddress? base name).isSome := by
  have hnames := names_globalDefinitions (homesPlaced_of_homesExist hh base)
  rw [definedNames, ← hnames, globalAddress?, List.mem_append, Option.isSome_or, Bool.or_eq_true,
    NameMap.find?_isSome_iff, List.lookup_isSome_iff, or_comm]
  refine or_congr ?_ Iff.rfl
  simp only [List.mem_map, List.mem_reverse, beq_iff_eq]
  exact ⟨fun ⟨d, hd, hn⟩ => ⟨d, hd, hn.symm⟩, fun ⟨d, hd, hn⟩ => ⟨d, hd, hn.symm⟩⟩

variable (base) in
include hh in
theorem collect_isOk_iff :
    (∃ a, collect (l.place base) 0 l.objects l.absolutes = .ok a) ↔ l.definedNames.Nodup := by
  have hnames := names_globalDefinitions (homesPlaced_of_homesExist hh base)
  simp only [collect_eq_ok_iff (homesPlaced_of_homesExist hh base), hnames, NameMap.find?_eq_none_iff]
  rw [definedNames, List.nodup_append]
  constructor
  · rintro ⟨_, ⟨hn, hf⟩, -⟩
    exact ⟨NameMap.nodup_names _, hn, fun a ha b hb hab => hf b hb (hab ▸ ha)⟩
  · rintro ⟨-, hn, hf⟩
    exact ⟨_, ⟨hn, fun n hn' ha => hf n ha n hn' rfl⟩, rfl⟩

include hh in
/-- A symbol that its object defines, under a name it uses once, is looked up where it lies. -/
theorem address?_of_mem (hn : l.definedNames.Nodup) {k i : Nat} {o : Object UInt32} {s : Symbol}
    {p : Placement} (ho : l.objects[k]? = some o) (hnames : (o.symbols.map (·.name)).Nodup)
    (hs : s ∈ o.symbols) (hi : s.home = some i) (hp : l.place base k i = some p) :
    l.address? base k s.name = some (p.address + s.value) := by
  have haddr : symbolAddress? (l.place base k) s = some (p.address + s.value) := by
    simp [symbolAddress?, hi, hp]
  unfold address?
  rw [ho, Option.bind_some]
  cases hg : s.isGlobal with
  | false =>
    have hmem := mem_definitions.mpr ⟨s, hs, hg, rfl, haddr⟩
    rw [lookup_reverse_of_mem (nodup_names_definitions hnames _ _) hmem]
    rfl
  | true =>
    have hlocal : (definitions false (l.place base k) o.symbols).reverse.lookup s.name = none := by
      refine List.lookup_eq_none_iff.mpr fun e he => ?_
      obtain ⟨t, ht, htg, htn, -⟩ := mem_definitions.mp (List.mem_reverse.mp he)
      rw [bne_iff_ne, ← htn]
      intro hst
      have := List.inj_on_of_nodup_map hnames hs ht hst
      rw [this, htg] at hg
      cases hg
    have hmem : (s.name, p.address + s.value) ∈ globalDefinitions (l.place base) 0 l.objects := by
      refine List.mem_flatMap.mpr ⟨(o, k), List.mem_zipIdx_iff_getElem?.mpr ho, ?_⟩
      exact mem_definitions.mpr ⟨s, hs, hg, rfl, haddr⟩
    have hnodup : ((globalDefinitions (l.place base) 0 l.objects).map (·.1)).Nodup := by
      rw [names_globalDefinitions (homesPlaced_of_homesExist hh base)]
      exact (List.nodup_append.mp hn).2.1
    rw [hlocal, Option.none_or, globalAddress?, lookup_reverse_of_mem hnodup hmem]
    rfl

variable {a : Addresses} (ha : collect (l.place base) 0 l.objects l.absolutes = .ok a)

include hh ha in
theorem globals_eq_of_collect :
    a.globals = l.absolutes.insertAll (globalDefinitions (l.place base) 0 l.objects) := by
  obtain ⟨-, rfl⟩ := (collect_eq_ok_iff (homesPlaced_of_homesExist hh base)).mp ha
  rfl

include hh ha in
theorem globals_of_collect (name : String) :
    a.globals.find? name = l.globalAddress? base name := by
  rw [globals_eq_of_collect hh ha]
  exact NameMap.find?_insertAll _ _ _

include hh ha in
theorem locals_of_collect : a.locals = localTables (l.place base) 0 l.objects := by
  obtain ⟨-, rfl⟩ := (collect_eq_ok_iff (homesPlaced_of_homesExist hh base)).mp ha
  rfl

include hh ha in
theorem lookup_eq_address? {k : Nat} {locals : NameMap UInt32} (hk : a.locals[k]? = some locals)
    (name : String) : a.lookup locals name = l.address? base k name := by
  rw [locals_of_collect hh ha, localTables, List.getElem?_map, List.getElem?_zipIdx] at hk
  cases ho : l.objects[k]? with
  | none => simp [ho] at hk
  | some o =>
    simp only [ho, Option.map_some, Nat.zero_add, Option.some.injEq] at hk
    subst hk
    have hfind : ∀ defs : List (String × UInt32),
        (NameMap.ofList defs).find? name = defs.reverse.lookup name := fun defs => by
      have h := NameMap.find?_insertAll .empty defs name
      rwa [show NameMap.find? .empty name = (none : Option UInt32) from rfl, Option.or_none] at h
    rw [address?, ho, Option.bind_some, ← hfind, ← globals_of_collect hh ha, Addresses.lookup]
    cases (NameMap.ofList (definitions false (l.place base k) o.symbols)).find? name <;> rfl

end

end Linker

end Dlx
