import Dlx.Proofs.Link.Alike
import Dlx.Proofs.Link.Frame

/-!
# Links that move and rename

A link is followed beside another one. The other has its base moved by a distance, and each of its
objects has other names for its local symbols. Tables, placements and patches of the two are
compared step by step: a symbol stands under its new name and at its moved address, and a
relocation that finds its symbol again and measures the same value makes the same patch.

Results:
* `collect_moved`: the tables of the one link follow those of the other.
* `planObjects_moved`: the patches are the same.
* `link_moved`: the two links fail for the same reason or give the same bytes, with every address
  moved.
-/
namespace Dlx

/-! ## Tables that follow one another -/

namespace NameMap

/-- What one table has under a name, the other has under the new name and moved. -/
def Follows (ρ : String → String) (d : UInt32) (m m' : NameMap UInt32) : Prop :=
  ∀ name, m'.find? (ρ name) = (m.find? name).map (· + d)

theorem follows_empty (ρ : String → String) (d : UInt32) : Follows ρ d empty empty :=
  fun _ => rfl

theorem Follows.contains {ρ : String → String} {d : UInt32} {m m' : NameMap UInt32}
    (h : Follows ρ d m m') (name : String) : m'.contains (ρ name) = m.contains name := by
  rw [NameMap.contains, h, NameMap.contains, Option.isSome_map]

theorem Follows.insert {ρ : String → String} (hρ : Function.Injective ρ) {d : UInt32}
    {m m' : NameMap UInt32} (h : Follows ρ d m m') (name : String) (address : UInt32) :
    Follows ρ d (m.insert name address) (m'.insert (ρ name) (address + d)) := by
  intro other
  by_cases hn : other = name
  · rw [hn, find?_insert_self, find?_insert_self]
    rfl
  · rw [find?_insert_of_ne _ _ hn, find?_insert_of_ne _ _ (hρ.ne hn), h]

/-- A table that follows under the same names and without a move is the same. -/
theorem follows_zero_iff {m m' : NameMap UInt32} : Follows id 0 m m' ↔ m' = m := by
  have hmap : ∀ o : Option UInt32, o.map (· + 0) = o := by
    intro o
    cases o <;> simp
  constructor
  · intro h
    exact eq_of_find? fun name => (h name).trans (hmap _)
  · rintro rfl name
    exact (hmap _).symm

end NameMap

/-! ## Moved placements and renamed objects -/

/-- A placement in an image that is loaded elsewhere. -/
def Placement.moved (d : UInt32) (p : Placement) : Placement := { p with address := p.address + d }

def Reloc.renamed (ρ : String → String) (r : Reloc UInt32) : Reloc UInt32 :=
  { r with symbol := ρ r.symbol }

def Section.renamed (ρ : String → String) (s : Section UInt32) : Section UInt32 :=
  { s with relocs := s.relocs.map (·.renamed ρ) }

/-- A symbol with another name, if it is local. -/
def Symbol.renamed (ρ : String → String) (s : Symbol) : Symbol :=
  if s.isGlobal then s else { s with name := ρ s.name }

/-- An object with other names for its local symbols, in its relocations too. -/
def Object.renamed (ρ : String → String) (o : Object UInt32) : Object UInt32 :=
  ⟨o.sections.map (·.renamed ρ), o.symbols.map (·.renamed ρ)⟩

theorem Symbol.renamed_of_isGlobal {s : Symbol} (h : s.isGlobal = true) (ρ : String → String) :
    s.renamed ρ = s :=
  if_pos h

theorem Symbol.renamed_of_local {s : Symbol} (h : s.isGlobal = false) (ρ : String → String) :
    s.renamed ρ = { s with name := ρ s.name } :=
  if_neg (by simp [h])

/-- Only the names that an object uses count. -/
theorem Object.renamed_congr {ρ ρ' : String → String} {o : Object UInt32}
    (hsymbols : ∀ s ∈ o.symbols, ρ s.name = ρ' s.name)
    (hrelocs : ∀ s ∈ o.sections, ∀ r ∈ s.relocs, ρ r.symbol = ρ' r.symbol) :
    o.renamed ρ = o.renamed ρ' := by
  have hs : o.sections.map (·.renamed ρ) = o.sections.map (·.renamed ρ') := by
    refine List.map_congr_left fun s hs => ?_
    have hr : s.relocs.map (·.renamed ρ) = s.relocs.map (·.renamed ρ') :=
      List.map_congr_left fun r hr => by rw [Reloc.renamed, Reloc.renamed, hrelocs s hs r hr]
    rw [Section.renamed, Section.renamed, hr]
  have hy : o.symbols.map (·.renamed ρ) = o.symbols.map (·.renamed ρ') :=
    List.map_congr_left fun s hs => by rw [Symbol.renamed, Symbol.renamed, hsymbols s hs]
  rw [Object.renamed, Object.renamed, hs, hy]

theorem Symbol.renamed_id (s : Symbol) : s.renamed id = s := by
  unfold Symbol.renamed
  split <;> rfl

theorem Object.renamed_id (o : Object UInt32) : o.renamed id = o := by
  have hr : (fun r : Reloc UInt32 => r.renamed id) = id := rfl
  have hs : (fun s : Section UInt32 => s.renamed id) = id := by
    funext s
    rw [Section.renamed, hr, List.map_id, id]
  have hy : (fun s : Symbol => s.renamed id) = id := funext Symbol.renamed_id
  rw [Object.renamed, hs, hy, List.map_id, List.map_id]

/-- An image and the same image loaded elsewhere. -/
structure Image.Moved (d : UInt32) (image image' : Image) : Prop where
  base : image'.base = image.base + d
  entry : image'.entry = image.entry + d
  textSize : image'.textSize = image.textSize
  bytes : image'.bytes = image.bytes
  symbols : NameMap.Follows id d image.symbols image'.symbols

theorem Image.Moved.eq {image image' : Image} (h : image.Moved 0 image') : image' = image := by
  cases image
  cases image'
  obtain ⟨hbase, hentry, hsize, hbytes, hsymbols⟩ := h
  simp only [UInt32.add_zero] at hbase hentry
  rw [Image.mk.injEq]
  exact ⟨hbase, hentry, hsize, hbytes, NameMap.follows_zero_iff.mp hsymbols⟩

namespace Linker

/-- Objects, counted from `k` on, with other names for their local symbols, each in its own way. -/
def renamedFrom (ρ : Nat → String → String) (k : Nat) (objects : List (Object UInt32)) :
    List (Object UInt32) :=
  (objects.zipIdx k).map fun x => x.1.renamed (ρ x.2)

theorem renamedFrom_cons (ρ : Nat → String → String) (k : Nat) (o : Object UInt32)
    (rest : List (Object UInt32)) :
    renamedFrom ρ k (o :: rest) = o.renamed (ρ k) :: renamedFrom ρ (k + 1) rest := rfl

theorem renamedFrom_id (k : Nat) (objects : List (Object UInt32)) :
    renamedFrom (fun _ => id) k objects = objects := by
  simp only [renamedFrom, Object.renamed_id]
  exact List.zipIdx_map_fst k objects

theorem contents_renamedFrom (ρ : Nat → String → String) (k : Nat)
    (objects : List (Object UInt32)) : contents (renamedFrom ρ k objects) = contents objects := by
  induction objects generalizing k with
  | nil => rfl
  | cons o rest ih =>
    have ho : ((o.renamed (ρ k)).sections.map fun s => (s.kind, s.data)) =
        o.sections.map fun s => (s.kind, s.data) := List.map_map
    rw [renamedFrom_cons]
    exact congrArg₂ List.cons ho (ih (k + 1))

theorem placement?_moved (l : ImageLayout) (base d : UInt32) (k i : Nat) :
    l.placement? (base + d) k i = (l.placement? base k i).map (·.moved d) := by
  unfold ImageLayout.placement?
  rw [Option.map_map]
  refine congrArg (Option.map · _) (funext fun p => ?_)
  simp only [Function.comp_apply, Placement.moved, Placement.mk.injEq, and_true]
  grind

/-! ## Entering symbols -/

section

variable {d : UInt32} {E : LinkError → LinkError → Prop}

theorem enterSymbol_moved {ρ : String → String} (hρ : Function.Injective ρ) (hE : ∀ e, E e e)
    {place place' : Nat → Option Placement} (hplace : ∀ i, place' i = (place i).map (·.moved d))
    {g g' l l' : NameMap UInt32} (hg : NameMap.Follows id d g g') (hl : NameMap.Follows ρ d l l')
    {s : Symbol}
    (hs : ∀ i, E (.noSuchSection s.name i) (.noSuchSection (s.renamed ρ).name i)) :
    Paired E (fun t t' => NameMap.Follows id d t.1 t'.1 ∧ NameMap.Follows ρ d t.2 t'.2)
      (enterSymbol place g l s) (enterSymbol place' g' l' (s.renamed ρ)) := by
  have hhome : (s.renamed ρ).home = s.home := by unfold Symbol.renamed; split <;> rfl
  unfold enterSymbol
  rw [hhome]
  cases s.home with
  | none => exact .ok ⟨hg, hl⟩
  | some i =>
    simp only [hplace]
    cases place i with
    | none => exact .error (hs i)
    | some p =>
      have hmoved : p.address + d + s.value = p.address + s.value + d := by grind
      cases hglobal : s.isGlobal with
      | false =>
        have hinsert := hl.insert hρ s.name (p.address + s.value)
        simp only [Symbol.renamed_of_local hglobal, Option.map_some, hglobal, Bool.not_false,
          if_true, Placement.moved, hmoved]
        exact .ok ⟨hg, hinsert⟩
      | true =>
        have hinsert := hg.insert Function.injective_id s.name (p.address + s.value)
        have hcontains : g'.contains s.name = g.contains s.name := hg.contains s.name
        simp only [Symbol.renamed_of_isGlobal hglobal, Option.map_some, hglobal, Bool.not_true,
          Bool.false_eq_true, if_false, Placement.moved, hmoved, hcontains]
        split
        · exact .error (hE _)
        · exact .ok ⟨hinsert, hl⟩

theorem enterSymbols_moved {ρ : String → String} (hρ : Function.Injective ρ) (hE : ∀ e, E e e)
    {place place' : Nat → Option Placement} (hplace : ∀ i, place' i = (place i).map (·.moved d))
    {symbols : List Symbol}
    (hs : ∀ s ∈ symbols, ∀ i, E (.noSuchSection s.name i) (.noSuchSection (s.renamed ρ).name i))
    {g g' l l' : NameMap UInt32} (hg : NameMap.Follows id d g g') (hl : NameMap.Follows ρ d l l') :
    Paired E (fun t t' => NameMap.Follows id d t.1 t'.1 ∧ NameMap.Follows ρ d t.2 t'.2)
      (enterSymbols place symbols g l) (enterSymbols place' (symbols.map (·.renamed ρ)) g' l') := by
  induction symbols generalizing g g' l l' with
  | nil => exact .ok ⟨hg, hl⟩
  | cons s rest ih =>
    obtain ⟨hs, hrest⟩ := List.forall_mem_cons.mp hs
    refine (enterSymbol_moved hρ hE hplace hg hl hs).bind fun _ _ _ _ htables => ?_
    exact ih hrest htables.1 htables.2

theorem collect_moved {ρ : Nat → String → String} (hρ : ∀ k, Function.Injective (ρ k))
    (hE : ∀ e, E e e) {place place' : Nat → Nat → Option Placement}
    (hplace : ∀ k i, place' k i = (place k i).map (·.moved d)) {k : Nat}
    {objects : List (Object UInt32)}
    (hs : ∀ x ∈ objects.zipIdx k, ∀ s ∈ x.1.symbols, ∀ i,
      E (.noSuchSection s.name i) (.noSuchSection (s.renamed (ρ x.2)).name i))
    {g g' : NameMap UInt32} (hg : NameMap.Follows id d g g') :
    Paired E (fun a a' => NameMap.Follows id d a.globals a'.globals ∧
        List.Forall₂ (fun x m' => NameMap.Follows (ρ x.2) d x.1 m') (a.locals.zipIdx k) a'.locals)
      (collect place k objects g) (collect place' k (renamedFrom ρ k objects) g') := by
  induction objects generalizing k g g' with
  | nil => exact .ok ⟨hg, .nil⟩
  | cons o rest ih =>
    rw [List.zipIdx_cons] at hs
    obtain ⟨ho, hrest⟩ := List.forall_mem_cons.mp hs
    have hempty := NameMap.follows_empty (ρ k) d
    refine (enterSymbols_moved (hρ k) hE (hplace k) ho hg hempty).bind fun _ _ _ _ htables => ?_
    refine (ih hrest htables.1).bind fun _ _ _ _ hmore => ?_
    exact .ok ⟨hmore.1, .cons htables.2 hmore.2⟩

/-- A name that is not local keeps its meaning only if it keeps its name. -/
theorem lookup_moved {ρ : String → String} {a a' : Addresses} {m m' : NameMap UInt32}
    (hg : NameMap.Follows id d a.globals a'.globals) (hl : NameMap.Follows ρ d m m') {name : String}
    (hname : m.find? name = none → ρ name = name) :
    a'.lookup m' (ρ name) = (a.lookup m name).map (· + d) := by
  unfold Addresses.lookup
  rw [hl]
  cases hm : m.find? name with
  | none =>
    rw [hname hm]
    exact hg name
  | some address => rfl

end

end Linker

/-! ## Planning -/

/-- A relocation finds its symbol, moved, under the new name. One that finds none has kept the name,
and the value of one that finds it is the same in the moved place. -/
structure Reloc.Keeps (ρ : String → String) (d : UInt32) (p : Placement)
    (lookup lookup' : String → Option UInt32) (r : Reloc UInt32) : Prop where
  found : lookup' (ρ r.symbol) = (lookup r.symbol).map (· + d)
  missing : lookup r.symbol = none → ρ r.symbol = r.symbol
  value : ∀ ty symbol, RelocType.ofCode? r.type = some ty → ty ≠ .none →
    r.offset.toNat + ty.rule.size ≤ p.length → lookup r.symbol = some symbol →
    relocValue ty (symbol + d) (p.address + d + r.offset) r.addend =
      relocValue ty symbol (p.address + r.offset) r.addend

section

variable {ρ : String → String} {d : UInt32} {lookup lookup' : String → Option UInt32}

theorem planReloc_moved {p : Placement} {r : Reloc UInt32} (h : r.Keeps ρ d p lookup lookup') :
    planReloc (p.moved d) lookup' (r.renamed ρ) = planReloc p lookup r := by
  simp only [planReloc, relocTypeAt, Reloc.renamed, Placement.moved, h.found]
  cases hty : RelocType.ofCode? r.type with
  | none => rfl
  | some ty =>
    by_cases hn : ty.formula = .none
    · simp only [bind, Except.bind, hn, if_true]
    · by_cases hb : p.length < r.offset.toNat + ty.rule.size
      · simp only [bind, Except.bind, hn, if_false, hb, if_true]
        rfl
      · cases hs : lookup r.symbol with
        | none => simp only [bind, Except.bind, hn, if_false, hb, Option.map_none, h.missing hs]
        | some symbol =>
          have hne : ty ≠ .none := fun h' => hn ((RelocType.formula_eq_none_iff ty).mpr h')
          have hvalue := h.value ty symbol hty hne (Nat.not_lt.mp hb) hs
          simp only [bind, Except.bind, hn, if_false, hb, Option.map_some, hvalue]

theorem plan_moved {p : Placement} {rs : List (Reloc UInt32)}
    (h : ∀ r ∈ rs, r.Keeps ρ d p lookup lookup') :
    plan (p.moved d) lookup' (rs.map (·.renamed ρ)) = plan p lookup rs := by
  induction rs with
  | nil => rfl
  | cons r rest ih =>
    obtain ⟨hr, hrest⟩ := List.forall_mem_cons.mp h
    rw [List.map_cons, plan, plan, planReloc_moved hr, ih hrest]

namespace Linker

theorem planSections_moved {place place' : Nat → Option Placement}
    (hplace : ∀ i, place' i = (place i).map (·.moved d)) {index : Nat}
    {ss : List (Section UInt32)}
    (h : ∀ x ∈ ss.zipIdx index, ∀ p, place x.2 = some p → ∀ r ∈ x.1.relocs,
      r.Keeps ρ d p lookup lookup') :
    planSections place' lookup' index (ss.map (·.renamed ρ)) =
      planSections place lookup index ss := by
  induction ss generalizing index with
  | nil => rfl
  | cons s rest ih =>
    rw [List.zipIdx_cons] at h
    obtain ⟨hs, hrest⟩ := List.forall_mem_cons.mp h
    rw [List.map_cons, planSections, planSections, ih hrest, hplace]
    cases hp : place index with
    | none => rfl
    | some p =>
      simp only [Option.map_some, Section.renamed, plan_moved (hs p hp)]

end Linker

end

namespace Linker

theorem planObjects_moved {ρ : Nat → String → String} {d : UInt32} {a a' : Addresses}
    {place place' : Nat → Nat → Option Placement}
    (hplace : ∀ k i, place' k i = (place k i).map (·.moved d)) {k : Nat}
    {objects : List (Object UInt32)} {ms ms' : List (NameMap UInt32)}
    (hlength : ms'.length = ms.length)
    (h : ∀ j o m m', objects[j]? = some o → ms[j]? = some m → ms'[j]? = some m' →
      ∀ y ∈ o.sections.zipIdx, ∀ p, place (k + j) y.2 = some p → ∀ r ∈ y.1.relocs,
        r.Keeps (ρ (k + j)) d p (a.lookup m) (a'.lookup m')) :
    planObjects place' a' k ((renamedFrom ρ k objects).zip ms') =
      planObjects place a k (objects.zip ms) := by
  induction objects generalizing k ms ms' with
  | nil => rfl
  | cons o rest ih =>
    match ms, ms', hlength with
    | [], [], _ => rfl
    | m :: ms, m' :: ms', hlength =>
      have hrest := ih (k := k + 1) (Nat.succ.inj hlength) fun j o' t t' ho ht ht' => by
        have := h (j + 1) o' t t' ho ht ht'
        rwa [Nat.add_comm j 1, ← Nat.add_assoc] at this
      have ho := planSections_moved (hplace k) (h 0 o m m' rfl rfl rfl)
      rw [renamedFrom_cons, List.zip_cons_cons, List.zip_cons_cons, planObjects, planObjects,
        hrest]
      exact congrArg (· >>= _) ho

/-! ## Linking -/

theorem entryAddress_moved {d : UInt32} {E : LinkError → LinkError → Prop} (hE : ∀ e, E e e)
    {g g' : NameMap UInt32} (hg : NameMap.Follows id d g g') (options : LinkSettings) :
    Paired E (fun entry entry' => entry' = entry + d) (entryAddress g options)
      (entryAddress g' { options with base := options.base + d }) := by
  have hfind : ∀ name, g'.find? name = (g.find? name).map (· + d) := hg
  unfold entryAddress
  cases options.entry with
  | none =>
    refine .ok ?_
    rw [hfind]
    cases g.find? "main" <;> rfl
  | some name =>
    simp only [hfind]
    cases g.find? name with
    | none => exact .error (hE _)
    | some address => exact .ok rfl

/-- The relocations of a link at `base` have the same values when everything is moved by `d`. -/
def Steady (l : Linker) (base d : UInt32) : Prop :=
  ∀ s ∈ allSections l.objects, ∀ p, l.place base s.object s.index = some p →
    ∀ r ∈ s.body.relocs, ∀ ty symbol, RelocType.ofCode? r.type = some ty → ty ≠ .none →
      r.offset.toNat + ty.rule.size ≤ p.length →
      l.address? base s.object r.symbol = some symbol →
      relocValue ty (symbol + d) (p.address + d + r.offset) r.addend =
        relocValue ty symbol (p.address + r.offset) r.addend

/-- A name without a local symbol has no entry in the table of its object. -/
theorem localSymbol?_of_find? {l : Linker} {base : UInt32} {a : Addresses}
    (ha : collect (l.place base) 0 l.objects l.absolutes = .ok a) {k : Nat} {o : Object UInt32}
    (ho : l.objects[k]? = some o) {m : NameMap UInt32} (hm : a.locals[k]? = some m)
    {name : String} (hname : m.find? name = none) : localSymbol? o.symbols name = none := by
  have hh := homesExist_of_collect ha
  have hplaced : HomesPlaced (l.place base k) o.symbols := by
    have := homesPlaced_of_homesExist hh base k o ho
    rwa [Nat.zero_add] at this
  rw [locals_of_collect hh ha, localTables, List.getElem?_map, List.getElem?_zipIdx, ho] at hm
  simp only [Option.map_some, Nat.zero_add, Option.some.injEq] at hm
  rw [← hm, find?_definitions hplaced] at hname
  by_contra hsome
  obtain ⟨s, hs⟩ := Option.ne_none_iff_exists'.mp hsome
  have hmem : s ∈ o.symbols := List.mem_reverse.mp (List.mem_of_find?_eq_some hs)
  have hhome : s.home.isSome := by
    have := List.find?_some hs
    simp only [Bool.and_eq_true] at this
    exact this.1.2
  have haddress := symbolAddress?_isSome hplaced hmem hhome
  rw [hs, Option.bind_some] at hname
  rw [hname] at haddress
  cases haddress

theorem follows_of_locals {ρ : Nat → String → String} {d : UInt32}
    {locals locals' : List (NameMap UInt32)}
    (h : List.Forall₂ (fun x m' => NameMap.Follows (ρ x.2) d x.1 m') (locals.zipIdx 0) locals')
    {k : Nat} {m m' : NameMap UInt32} (hm : locals[k]? = some m) (hm' : locals'[k]? = some m') :
    NameMap.Follows (ρ k) d m m' := by
  have hzip : (locals.zipIdx 0)[k]? = some (m, k) := by
    rw [List.getElem?_zipIdx, hm, Option.map_some, Nat.zero_add]
  obtain ⟨hlt, hget⟩ := List.getElem?_eq_some_iff.mp hzip
  obtain ⟨hlt', hget'⟩ := List.getElem?_eq_some_iff.mp hm'
  have hfollows := h.get hlt hlt'
  simpa only [List.get_eq_getElem, hget, hget'] using hfollows

/-- With the tables of both links a relocation keeps its symbol and its value. -/
theorem keeps_of_collect {l : Linker} {base d : UInt32} {ρ : String → String} {a a' : Addresses}
    (ha : collect (l.place base) 0 l.objects l.absolutes = .ok a) (hsteady : l.Steady base d)
    (hglobals : NameMap.Follows id d a.globals a'.globals) {k : Nat} {o : Object UInt32}
    (ho : l.objects[k]? = some o) {m m' : NameMap UInt32} (hm : a.locals[k]? = some m)
    (hfollows : NameMap.Follows ρ d m m') {i : Nat} {s : Section UInt32}
    (hs : o.sections[i]? = some s) {p : Placement} (hp : l.place base k i = some p)
    {r : Reloc UInt32} (hr : r ∈ s.relocs)
    (hsame : localSymbol? o.symbols r.symbol = none → ρ r.symbol = r.symbol) :
    r.Keeps ρ d p (a.lookup m) (a'.lookup m') := by
  have hname : m.find? r.symbol = none → ρ r.symbol = r.symbol := fun hnone =>
    hsame (localSymbol?_of_find? ha ho hm hnone)
  constructor
  case found => exact lookup_moved hglobals hfollows hname
  case missing =>
    intro hnone
    refine hname ?_
    unfold Addresses.lookup at hnone
    cases hm : m.find? r.symbol with
    | none => rfl
    | some address => simp [hm] at hnone
  case value =>
    intro ty symbol hty hne hin hsymbol
    rw [lookup_eq_address? (homesExist_of_collect ha) ha hm] at hsymbol
    have hmem : ⟨k, i, s⟩ ∈ allSections l.objects := mem_allSections.mpr ⟨o, ho, hs⟩
    exact hsteady _ hmem p hp r hr ty symbol hty hne hin hsymbol

theorem link_moved {l : Linker} {options : LinkSettings} {d : UInt32} {ρ : Nat → String → String}
    {E : LinkError → LinkError → Prop} (hρ : ∀ k, Function.Injective (ρ k)) (hE : ∀ e, E e e)
    (hs : ∀ (k : Nat) (o : Object UInt32), l.objects[k]? = some o → ∀ s ∈ o.symbols, ∀ i,
      E (.noSuchSection s.name i) (.noSuchSection (s.renamed (ρ k)).name i))
    (hnames : ∀ (k : Nat) (o : Object UInt32), l.objects[k]? = some o → ∀ s ∈ o.sections,
      ∀ r ∈ s.relocs, localSymbol? o.symbols r.symbol = none → ρ k r.symbol = r.symbol)
    (hsteady : l.Steady options.base d) {absolutes : NameMap UInt32}
    (habsolutes : NameMap.Follows id d l.absolutes absolutes) :
    Paired E (Image.Moved d) (l.link options)
      ((Linker.mk (renamedFrom ρ 0 l.objects) absolutes).link
        { options with base := options.base + d }) := by
  have hcontents := contents_renamedFrom ρ 0 l.objects
  have hplace : ∀ k i, (layout (renamedFrom ρ 0 l.objects)).placement? (options.base + d) k i =
      (l.place options.base k i).map (·.moved d) := by
    intro k i
    rw [placement?_congr (shape_of_contents hcontents), placement?_moved]
    rfl
  have hs' : ∀ x ∈ l.objects.zipIdx 0, ∀ s ∈ x.1.symbols, ∀ i,
      E (.noSuchSection s.name i) (.noSuchSection (s.renamed (ρ x.2)).name i) :=
    fun x hx => hs x.2 x.1 (List.mem_zipIdx_iff_getElem?.mp hx)
  unfold link
  refine (collect_moved hρ hE hplace hs' habsolutes).bind fun a a' ha _ htables => ?_
  obtain ⟨hglobals, hlocals⟩ := htables
  have hlength : a'.locals.length = a.locals.length := by
    rw [← hlocals.length_eq, List.length_zipIdx]
  have hpatches :
      planObjects ((layout (renamedFrom ρ 0 l.objects)).placement? (options.base + d)) a' 0
        ((renamedFrom ρ 0 l.objects).zip a'.locals) =
      planObjects (l.place options.base) a 0 (l.objects.zip a.locals) := by
    refine planObjects_moved hplace hlength fun k o m m' ho hm hm' y hy p hp r hr => ?_
    have hsection : o.sections[y.2]? = some y.1 := List.mem_zipIdx_iff_getElem?.mp hy
    rw [Nat.zero_add] at hp ⊢
    have hfollows := follows_of_locals hlocals hm hm'
    exact keeps_of_collect ha hsteady hglobals ho hm hfollows hsection hp hr
      (hnames k o ho y.1 (List.mem_of_getElem? hsection) r hr)
  have hbytes := congrArg applyPatches (bytes_congr hcontents)
  refine (Paired.of_eq hE hpatches).bind_same fun patches _ => ?_
  refine (Paired.of_eq hE (congrFun hbytes patches)).bind_same fun bytes _ => ?_
  refine (entryAddress_moved hE hglobals options).bind fun entry entry' _ _ hentry => ?_
  refine .ok ⟨rfl, hentry, ?_, rfl, hglobals⟩
  rw [textSize_congr (shape_of_contents hcontents)]

end Linker

end Dlx
