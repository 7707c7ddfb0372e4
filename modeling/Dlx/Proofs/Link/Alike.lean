import Dlx.Proofs.Link.Planning

/-!
# Objects that link alike

What a link makes of an object does not depend on all of it. The names of sections do not count, nor
does where the local symbols stand among the global ones. A local symbol counts if a relocation
refers to it, and an addend counts by the bits that reach the field.

Results:
* `collect_eq`: global names are settled by the global symbols alone.
* `planObjects_alike`: the same relocations fail, with the same errors, and the others write the
  same fields.
* `link_alike`: lists of objects that are alike one by one give the same image or the same error.
-/
namespace Dlx

/-! ## Alike -/

/-- Two addends that a type of relocation does not tell apart, in whatever place and with whatever
symbol. -/
def RelocType.SameEffect (ty : RelocType) (a b : Int64) : Prop :=
  ∀ symbol place, ty.rule.fieldValue (relocValue ty symbol place a) =
    ty.rule.fieldValue (relocValue ty symbol place b)

structure Reloc.Alike (r r' : Reloc UInt32) : Prop where
  offset : r.offset = r'.offset
  symbol : r.symbol = r'.symbol
  type : r.type = r'.type
  addend : ∀ ty, RelocType.ofCode? r.type = some ty → ty.SameEffect r.addend r'.addend

structure Section.Alike (s s' : Section UInt32) : Prop where
  kind : s.kind = s'.kind
  data : s.data = s'.data
  relocs : List.Forall₂ Reloc.Alike s.relocs s'.relocs

/-- The symbol that a name stands for in its own object: the last local one of this name that is
defined. -/
def localSymbol? (symbols : List Symbol) (name : String) : Option Symbol :=
  symbols.reverse.find? fun s => !s.isGlobal && s.home.isSome && s.name = name

structure Object.Alike (o o' : Object UInt32) : Prop where
  sections : List.Forall₂ Section.Alike o.sections o'.sections
  globals : o.symbols.filter (·.isGlobal) = o'.symbols.filter (·.isGlobal)
  locals : ∀ s ∈ o.sections, ∀ r ∈ s.relocs,
    localSymbol? o.symbols r.symbol = localSymbol? o'.symbols r.symbol

namespace Linker

/-! ## Entering symbols -/

/-- A global symbol is entered whatever the table of local names. -/
theorem enterSymbol_of_isGlobal {place : Nat → Option Placement} {s : Symbol}
    (hg : s.isGlobal = true) (g l : NameMap UInt32) :
    enterSymbol place g l s = (enterSymbol place g .empty s).map fun entered => (entered.1, l) := by
  unfold enterSymbol
  split
  · rfl
  · split
    · rfl
    · simp only [hg, Bool.not_true, Bool.false_eq_true, if_false]
      split <;> rfl

/-- The local symbols have no part in whether the symbols can be entered, and in which error there
is if not. -/
theorem enterSymbols_eq {place : Nat → Option Placement} {symbols : List Symbol}
    (h : HomesPlaced place symbols) (g l : NameMap UInt32) :
    enterSymbols place symbols g l =
      (enterSymbols place (symbols.filter (·.isGlobal)) g .empty).map fun entered =>
        (entered.1, l.insertAll (definitions false place symbols)) := by
  induction symbols generalizing g l with
  | nil => rfl
  | cons s rest ih =>
    have hs : HomesPlaced place [s] := fun t ht => h t (by simp_all)
    have ih := ih fun t ht => h t (List.mem_cons_of_mem _ ht)
    rw [definitions_cons, NameMap.insertAll_append, enterSymbols]
    -- A local symbol is entered on the left only, a global one on both sides with the same outcome.
    cases hg : s.isGlobal with
    | false =>
      have henter : enterSymbol place g l s = .ok (g, l.insertAll (definitions false place [s])) :=
        (enterSymbol_eq_ok_iff hs).mpr
          ⟨by simp [definitions, hg], by simp [definitions, hg, NameMap.insertAll], rfl⟩
      rw [List.filter_cons_of_neg (by simp [hg]), henter]
      exact ih _ _
    | true =>
      have hdefs : definitions false place [s] = [] := by simp [definitions, hg]
      rw [List.filter_cons_of_pos hg, enterSymbols, enterSymbol_of_isGlobal hg g l,
        enterSymbol_of_isGlobal hg g .empty, hdefs]
      cases enterSymbol place g .empty s with
      | error e => rfl
      | ok entered => exact ih entered.1 l

/-- The part of an object that other objects see. -/
def globalPart (o : Object UInt32) : Object UInt32 := ⟨[], o.symbols.filter (·.isGlobal)⟩

theorem collect_eq {place : Nat → Nat → Option Placement} {k : Nat}
    {objects : List (Object UInt32)}
    (h : ∀ i o, objects[i]? = some o → HomesPlaced (place (k + i)) o.symbols) (g : NameMap UInt32) :
    collect place k objects g =
      (collect place k (objects.map globalPart) g).map fun a =>
        ⟨a.globals, localTables place k objects⟩ := by
  induction objects generalizing k g with
  | nil => rfl
  | cons o rest ih =>
    have ho : HomesPlaced (place k) o.symbols := h 0 o rfl
    have ih := ih (homesPlaced_tail h)
    rw [List.map_cons, collect, collect, enterSymbols_eq ho, globalPart]
    cases enterSymbols (place k) (o.symbols.filter (·.isGlobal)) g .empty with
    | error e => rfl
    | ok entered =>
      simp only [Except.map, bind, Except.bind, ih]
      cases collect place (k + 1) (rest.map globalPart) entered.1 <;> rfl

theorem localSymbol?_append (symbols symbols' : List Symbol) (name : String) :
    localSymbol? (symbols ++ symbols') name =
      (localSymbol? symbols' name).or (localSymbol? symbols name) := by
  rw [localSymbol?, List.reverse_append, List.find?_append]
  rfl

theorem symbolAddress?_isSome {place : Nat → Option Placement} {symbols : List Symbol}
    (h : HomesPlaced place symbols) {s : Symbol} (hs : s ∈ symbols) (hh : s.home.isSome) :
    (symbolAddress? place s).isSome := by
  obtain ⟨i, hi⟩ := Option.isSome_iff_exists.mp hh
  obtain ⟨p, hp⟩ := Option.isSome_iff_exists.mp (h s hs i hi)
  simp [symbolAddress?, hi, hp]

theorem lookup_definitions_one (place : Nat → Option Placement) (s : Symbol) (name : String) :
    (definitions false place [s]).reverse.lookup name =
      (localSymbol? [s] name).bind (symbolAddress? place) := by
  cases hg : s.isGlobal with
  | true => simp [definitions, localSymbol?, hg]
  | false =>
    by_cases hn : s.name = name
    · cases hh : s.home with
      | none => simp [definitions, localSymbol?, symbolAddress?, hg, hn, hh]
      | some i =>
        cases hp : place i <;> simp [definitions, localSymbol?, symbolAddress?, hg, hn, hh, hp]
    · have hb : (name == s.name) = false := by simpa using Ne.symm hn
      cases ha : symbolAddress? place s <;>
        simp [definitions, localSymbol?, hg, hn, ha, List.lookup_cons, hb]

theorem lookup_definitions {place : Nat → Option Placement} {symbols : List Symbol}
    (h : HomesPlaced place symbols) (name : String) :
    (definitions false place symbols).reverse.lookup name =
      (localSymbol? symbols name).bind (symbolAddress? place) := by
  induction symbols with
  | nil => rfl
  | cons s rest ih =>
    have hrest : HomesPlaced place rest := fun t ht => h t (List.mem_cons_of_mem _ ht)
    have happend : localSymbol? (s :: rest) name = _ := localSymbol?_append [s] rest name
    rw [definitions_cons, List.reverse_append, List.lookup_append, ih hrest,
      lookup_definitions_one, happend]
    cases hfound : localSymbol? rest name with
    | none => rfl
    | some t =>
      have hmem : t ∈ rest := List.mem_reverse.mp (List.mem_of_find?_eq_some hfound)
      have hhome : t.home.isSome := by
        have := List.find?_some hfound
        simp only [Bool.and_eq_true] at this
        exact this.1.2
      obtain ⟨a, ha⟩ := Option.isSome_iff_exists.mp (symbolAddress?_isSome hrest hmem hhome)
      simp [ha]

theorem find?_definitions {place : Nat → Option Placement} {symbols : List Symbol}
    (h : HomesPlaced place symbols) (name : String) :
    (NameMap.ofList (definitions false place symbols)).find? name =
      (localSymbol? symbols name).bind (symbolAddress? place) := by
  have hfind := NameMap.find?_insertAll .empty (definitions false place symbols) name
  rw [← lookup_definitions h]
  exact hfind.trans Option.or_none

end Linker

/-! ## Planning -/

/-- What a patch writes, and where. -/
def Patch.effect (p : Patch) : Nat × RelocType × Except PatchError UInt64 :=
  (p.offset, p.type, p.type.rule.fieldValue p.value)

theorem Patch.apply_effect {p q : Patch} (h : p.effect = q.effect) (image : Bytes) :
    p.apply image = q.apply image := by
  obtain ⟨offset, type, value⟩ := p
  obtain ⟨offset', type', value'⟩ := q
  simp only [effect, Prod.mk.injEq] at h
  obtain ⟨rfl, rfl, hvalue⟩ := h
  simp only [apply, FieldRule.patch, hvalue]

theorem applyPatches_effect {ps qs : List Patch} (h : ps.map Patch.effect = qs.map Patch.effect)
    (image : Bytes) : applyPatches image ps = applyPatches image qs := by
  have hwrite : writePatches image ps = writePatches image qs := by
    induction ps generalizing qs image with
    | nil =>
      rw [List.map_nil, eq_comm, List.map_eq_nil_iff] at h
      rw [h]
    | cons p ps ih =>
      obtain ⟨q, qs, rfl, hq, hqs⟩ := List.map_eq_cons_iff.mp h.symm
      rw [writePatches, writePatches, Patch.apply_effect hq.symm]
      split
      · exact ih hqs.symm _
      · rfl
  rw [applyPatches, applyPatches, hwrite]

/-- Two results that are joined, seen through what becomes of their members. -/
theorem map_bind_append {ε α β γ : Type} (f : α → β) (members : γ → List α) (x : Except ε γ)
    (y : Except ε (List α)) :
    (x >>= fun c => y >>= fun as => pure (members c ++ as)).map (List.map f) =
      x.map (fun c => (members c).map f) >>= fun bs => y.map (List.map f) >>= fun bs' =>
        pure (bs ++ bs') := by
  cases x with
  | error e => rfl
  | ok c =>
    cases y with
    | error e => rfl
    | ok as => exact congrArg Except.ok List.map_append

theorem bind_append_congr {ε α β γ : Type} {f : α → β} (members : γ → List α) {x x' : Except ε γ}
    {y y' : Except ε (List α)}
    (hx : (x.map fun c => (members c).map f) = x'.map fun c => (members c).map f)
    (hy : y.map (List.map f) = y'.map (List.map f)) :
    (x >>= fun c => y >>= fun as => pure (members c ++ as)).map (List.map f) =
      (x' >>= fun c => y' >>= fun as => pure (members c ++ as)).map (List.map f) := by
  rw [map_bind_append, map_bind_append, hx, hy]

section

variable {lookup lookup' : String → Option UInt32}

theorem planReloc_alike {r r' : Reloc UInt32} (h : r.Alike r')
    (hl : lookup r.symbol = lookup' r.symbol) (p : Placement) :
    (planReloc p lookup r).map (fun found => found.toList.map Patch.effect) =
      (planReloc p lookup' r').map fun found => found.toList.map Patch.effect := by
  obtain ⟨offset, symbol, type, addend⟩ := r
  obtain ⟨offset', symbol', type', addend'⟩ := r'
  obtain ⟨rfl, rfl, rfl, haddend⟩ := h
  dsimp only at hl haddend
  simp only [planReloc, relocTypeAt, hl]
  cases hty : RelocType.ofCode? type with
  | none => rfl
  | some ty =>
    by_cases hn : ty.formula = .none
    · simp only [bind, Except.bind, hn, if_true]
    · by_cases hb : p.length < offset.toNat + ty.rule.size
      · simp only [bind, Except.bind, hn, if_false, hb, if_true]
        rfl
      · cases lookup' symbol with
        | none => simp only [bind, Except.bind, hn, if_false, hb]
        | some address =>
          have hfield := haddend ty hty address (p.address + offset)
          simp only [bind, Except.bind, hn, if_false, hb, RelocType.ensureFits, hfield]
          cases ty.rule.fieldValue (relocValue ty address (p.address + offset) addend') with
          | error e => rfl
          | ok field =>
            simp only [pure, Except.pure, Except.map, Option.toList_some, List.map_cons,
              List.map_nil, Patch.effect, hfield]

theorem plan_alike {rs rs' : List (Reloc UInt32)} (h : List.Forall₂ Reloc.Alike rs rs')
    (hl : ∀ r ∈ rs, lookup r.symbol = lookup' r.symbol) (p : Placement) :
    (plan p lookup rs).map (List.map Patch.effect) =
      (plan p lookup' rs').map (List.map Patch.effect) := by
  induction h with
  | nil => rfl
  | cons hr _ ih =>
    obtain ⟨hl, hlrest⟩ := List.forall_mem_cons.mp hl
    exact bind_append_congr Option.toList (planReloc_alike hr hl p) (ih hlrest)

end

namespace Linker

theorem planSections_alike {lookup lookup' : String → Option UInt32}
    {ss ss' : List (Section UInt32)} (h : List.Forall₂ Section.Alike ss ss')
    (hl : ∀ s ∈ ss, ∀ r ∈ s.relocs, lookup r.symbol = lookup' r.symbol)
    (place : Nat → Option Placement) (index : Nat) :
    (planSections place lookup index ss).map (List.map Patch.effect) =
      (planSections place lookup' index ss').map (List.map Patch.effect) := by
  induction h generalizing index with
  | nil => rfl
  | cons hs _ ih =>
    obtain ⟨hl, hlrest⟩ := List.forall_mem_cons.mp hl
    rw [planSections, planSections]
    cases place index with
    | none => exact bind_append_congr (fun ps => ps) rfl (ih hlrest (index + 1))
    | some p =>
      exact bind_append_congr (fun ps => ps) (plan_alike hs.relocs hl p) (ih hlrest (index + 1))

/-- Objects with their tables of local names whose relocations refer to the same addresses. -/
theorem planObjects_alike {a a' : Addresses} {xs ys : List (Object UInt32 × NameMap UInt32)}
    (h : List.Forall₂ (fun x y => List.Forall₂ Section.Alike x.1.sections y.1.sections ∧
      ∀ s ∈ x.1.sections, ∀ r ∈ s.relocs, a.lookup x.2 r.symbol = a'.lookup y.2 r.symbol) xs ys)
    (place : Nat → Nat → Option Placement) (k : Nat) :
    (planObjects place a k xs).map (List.map Patch.effect) =
      (planObjects place a' k ys).map (List.map Patch.effect) := by
  induction h generalizing k with
  | nil => rfl
  | cons ho _ ih =>
    exact bind_append_congr (fun ps => ps) (planSections_alike ho.1 ho.2 (place k) 0) (ih (k + 1))

/-! ## Linking -/

theorem map_eq_of_forall₂ {α β γ : Type} {R : α → β → Prop} {f : α → γ} {g : β → γ} {l : List α}
    {m : List β} (h : List.Forall₂ R l m) (hfg : ∀ a b, R a b → f a = g b) : l.map f = m.map g := by
  induction h with
  | nil => rfl
  | cons hab _ ih => rw [List.map_cons, List.map_cons, hfg _ _ hab, ih]

theorem contents_alike {objects objects' : List (Object UInt32)}
    (h : List.Forall₂ Object.Alike objects objects') : contents objects = contents objects' := by
  refine map_eq_of_forall₂ h fun o o' ho => ?_
  refine map_eq_of_forall₂ ho.sections fun s s' hs => ?_
  rw [hs.kind, hs.data]

theorem shape_of_contents {objects objects' : List (Object UInt32)}
    (h : contents objects = contents objects') : shape objects = shape objects' := by
  have hlengths := congrArg (List.map (List.map fun x : SectionKind × Bytes => (x.1, x.2.length))) h
  simpa only [contents, shape, List.map_map, Function.comp_def] using hlengths

theorem globalParts_alike {objects objects' : List (Object UInt32)}
    (h : List.Forall₂ Object.Alike objects objects') :
    objects.map globalPart = objects'.map globalPart :=
  map_eq_of_forall₂ h fun o o' ho => by rw [globalPart, globalPart, ho.globals]

theorem localTables_alike {place : Nat → Nat → Option Placement} (globals : NameMap UInt32)
    (locals locals' : List (NameMap UInt32)) {objects objects' : List (Object UInt32)}
    (h : List.Forall₂ Object.Alike objects objects') {k : Nat}
    (hp : ∀ i o, objects[i]? = some o → HomesPlaced (place (k + i)) o.symbols)
    (hp' : ∀ i o, objects'[i]? = some o → HomesPlaced (place (k + i)) o.symbols) :
    List.Forall₂ (fun x y => List.Forall₂ Section.Alike x.1.sections y.1.sections ∧
      ∀ s ∈ x.1.sections, ∀ r ∈ s.relocs,
        Addresses.lookup ⟨globals, locals⟩ x.2 r.symbol =
          Addresses.lookup ⟨globals, locals'⟩ y.2 r.symbol)
      (objects.zip (localTables place k objects)) (objects'.zip (localTables place k objects')) := by
  induction h generalizing k with
  | nil => exact .nil
  | @cons o o' rest rest' ho _ ih =>
    have hplaced : HomesPlaced (place k) o.symbols := hp 0 o rfl
    have hplaced' : HomesPlaced (place k) o'.symbols := hp' 0 o' rfl
    refine .cons ⟨ho.sections, ?_⟩ (ih (homesPlaced_tail hp) (homesPlaced_tail hp'))
    intro s hs r hr
    simp only [Addresses.lookup, find?_definitions hplaced, find?_definitions hplaced',
      ho.locals s hs r hr]

theorem bind_congr_of_map {ε α β γ : Type} {f : α → γ} {x x' : Except ε α} {k k' : α → Except ε β}
    (h : x.map f = x'.map f) (hk : ∀ a a', f a = f a' → k a = k' a') : x >>= k = x' >>= k' := by
  cases x with
  | error e =>
    cases x' with
    | error e' => rw [Except.error.inj h]; rfl
    | ok a' => cases h
  | ok a =>
    cases x' with
    | error e' => cases h
    | ok a' => exact hk a a' (Except.ok.inj h)

theorem link_alike {objects objects' : List (Object UInt32)} (hh : HomesExist objects)
    (hh' : HomesExist objects') (h : List.Forall₂ Object.Alike objects objects')
    (absolutes : NameMap UInt32) (options : LinkSettings) :
    (Linker.mk objects absolutes).link options = (Linker.mk objects' absolutes).link options := by
  have hshape := shape_of_contents (contents_alike h)
  have hplace : (layout objects).placement? options.base =
      (layout objects').placement? options.base := by
    funext k i
    exact placement?_congr hshape options.base k i
  have hp : ∀ k o, objects[k]? = some o →
      HomesPlaced ((layout objects').placement? options.base (0 + k)) o.symbols :=
    hplace ▸ @homesPlaced_of_homesExist ⟨objects, absolutes⟩ hh options.base
  have hp' : ∀ k o, objects'[k]? = some o →
      HomesPlaced ((layout objects').placement? options.base (0 + k)) o.symbols :=
    @homesPlaced_of_homesExist ⟨objects', absolutes⟩ hh' options.base
  unfold link
  dsimp only
  rw [hplace, collect_eq hp, collect_eq hp', globalParts_alike h, bytes_congr (contents_alike h),
    textSize_congr hshape]
  generalize (layout objects').placement? options.base = place at hp hp'
  cases collect place 0 (objects'.map globalPart) absolutes with
  | error e => rfl
  | ok a =>
    -- The global names are the same now, so the tables of local names decide what a relocation finds.
    have htables := localTables_alike a.globals (localTables place 0 objects)
      (localTables place 0 objects') h hp hp'
    change (planObjects _ ⟨a.globals, _⟩ 0 (objects.zip _) >>= _) =
      planObjects _ ⟨a.globals, _⟩ 0 (objects'.zip _) >>= _
    refine bind_congr_of_map (planObjects_alike htables _ 0) ?_
    intro ps qs hpatches
    rw [applyPatches_effect hpatches]

end Linker

end Dlx
