import Dlx.Proofs.Assembly.Finishing
import Dlx.Proofs.Source.Names

/-!
# The names in an assembled object

An assembly takes its names from the statements of the source and makes up none but `.text`, in which
it starts. A section is opened once for its name, and a relocation's symbol is listed in the object,
if need be at the end.

Results:
* `statements_wellNamed`: what the names of an assembly keep to, statement by statement.
* `assemble_wellFormed`: an assembled object has sections of distinct names, symbols that lie in its
  sections, and a symbol for each relocation, all under names that a source can spell.
-/
namespace Dlx

open Source (IsName Spelled)

/-! ## The names of a fixup -/

theorem encodeOperand_values {op : Opcode} {index : Nat} {slot : Slot} {operand : Operand}
    {field : UInt32} {fixups : List Fixup}
    (h : encodeOperand op index slot operand = .ok (field, fixups)) :
    ∀ f ∈ fixups, operand = .expr f.value := by
  cases operand with
  | reg r =>
    simp only [encodeOperand] at h
    split at h <;> cases h
    exact List.forall_mem_nil _
  | imm v =>
    simp only [encodeOperand] at h
    split at h <;> cases h
    exact List.forall_mem_nil _
  | expr e =>
    simp only [encodeOperand] at h
    split at h
    · cases h
    · split at h
      · cases h
      · obtain ⟨kind, -, h⟩ := Except.bind_eq_ok_iff.mp h
        cases h
        exact List.forall_mem_singleton.mpr rfl

theorem encodeOperands_values {op : Opcode} {word word' : UInt32} {index : Nat}
    {slots : List (Slot × Operand)} {fixups : List Fixup}
    (h : encodeOperands op word index slots = .ok (word', fixups)) :
    ∀ f ∈ fixups, Operand.expr f.value ∈ slots.map (·.2) := by
  induction slots generalizing word index word' fixups with
  | nil =>
    cases h
    exact List.forall_mem_nil _
  | cons x rest ih =>
    simp only [encodeOperands, Except.bind_eq_ok_iff, Prod.exists] at h
    obtain ⟨field, first, hx, _, more, hrest, h⟩ := h
    cases h
    intro f hf
    rcases List.mem_append.mp hf with hf | hf
    · exact encodeOperand_values hx f hf ▸ List.mem_cons_self
    · exact List.mem_cons_of_mem _ (ih hrest f hf)

/-- The fixups of an instruction are for its operands. -/
theorem Inst.encode_values {i : Inst} {word : UInt32} {fixups : List Fixup}
    (h : i.encode = .ok (word, fixups)) : ∀ f ∈ fixups, Operand.expr f.value ∈ i.operands := by
  unfold Inst.encode at h
  split at h
  · cases h
  · split at h
    · next hlen =>
      intro f hf
      have hmem := encodeOperands_values h f hf
      rwa [List.map_snd_zip (Nat.le_of_eq hlen)] at hmem
    · cases h

theorem Expr.symbol_of_refers? {e : Expr} {r : SymbolRef} {s : String}
    (h : e.refers? = some r) (hs : r.symbol = some s) : s ∈ e.names := by
  rw [← names_unmarked]
  exact (refers?_eq_some_iff.mp h).2.symbol_mem_names hs

theorem symbol_of_settle {localPc : Bool} {symbols : SymbolTable} {home : Nat} {f : Fixup}
    {symbol : String} {addend : Int64}
    (h : settle localPc symbols home f = .ok (.deferred symbol addend)) :
    symbol ∈ f.value.names := by
  unfold settle at h
  split at h
  · cases h
  · cases h
  · split at h <;> cases h
  · next hr =>
    split at h
    · split at h <;> cases h
      exact Expr.symbol_of_refers? hr rfl
    · cases h
      exact Expr.symbol_of_refers? hr rfl

namespace Assembly

theorem symbol_of_deferredReloc? {a : Assembly} {home : Nat} {f : Fixup} {r : Reloc RelocType}
    (h : a.deferredReloc? home f = some r) : r.symbol ∈ f.value.names := by
  unfold deferredReloc? at h
  split at h
  · next hs =>
    obtain ⟨ty, -, rfl⟩ := Option.map_eq_some_iff.mp h
    exact symbol_of_settle hs
  · cases h

/-! ## Assemblies -/

/-- Every name is one that a source can spell, and no two sections have the same. -/
structure WellNamed (a : Assembly) : Prop where
  distinct : (a.sections.map (·.name)).Nodup
  sections : ∀ s ∈ a.sections, IsName s.name
  symbols : ∀ e ∈ a.symbols.entries, IsName e.1
  fixups : ∀ s ∈ a.sections, ∀ f ∈ s.fixups, Spelled f.value.names

theorem wellNamed_start (localPc : Bool) : (start localPc).WellNamed where
  distinct := List.nodup_singleton _
  sections := List.forall_mem_singleton.mpr Source.isName_text
  symbols := fun _ he => nomatch he
  fixups := List.forall_mem_singleton.mpr fun _ hf => nomatch hf

namespace WellNamed
variable {a b : Assembly} (ha : a.WellNamed)
include ha

theorem enter {name : String} (hn : IsName name) : (a.enter name).WellNamed := by
  have hdistinct := (Step.enter a name).nodup_names ha.distinct
  rcases a.enter_cases name with ⟨i, -, he⟩ | he <;> rw [he] at hdistinct ⊢
  · exact ⟨hdistinct, ha.sections, ha.symbols, ha.fixups⟩
  · refine ⟨hdistinct, ?_, ha.symbols, ?_⟩
    · exact List.forall_mem_append.mpr ⟨ha.sections, List.forall_mem_singleton.mpr hn⟩
    · exact List.forall_mem_append.mpr
        ⟨ha.fixups, List.forall_mem_singleton.mpr fun f hf => nomatch hf⟩

theorem append {bytes : Bytes} {fixups : List Fixup}
    (hfix : ∀ f ∈ fixups, Spelled f.value.names) : (a.append bytes fixups).WellNamed := by
  have hmem : ∀ s ∈ (a.append bytes fixups).sections, ∃ t ∈ a.sections, s.name = t.name ∧
      ∀ f ∈ s.fixups, f ∈ t.fixups ∨ f ∈ fixups := by
    intro s hs
    obtain ⟨i, hi⟩ := List.mem_iff_getElem?.mp hs
    rw [getElem?_append] at hi
    obtain ⟨t, ht, rfl⟩ := Option.map_eq_some_iff.mp hi
    refine ⟨t, List.mem_of_getElem? ht, ?_⟩
    split
    · exact ⟨rfl, fun f hf => List.mem_append.mp hf⟩
    · exact ⟨rfl, fun f hf => .inl hf⟩
  refine ⟨names_append a bytes fixups ▸ ha.distinct, ?_, ha.symbols, ?_⟩
  · intro s hs
    obtain ⟨t, ht, hname, -⟩ := hmem s hs
    exact hname ▸ ha.sections t ht
  · intro s hs f hf
    obtain ⟨t, ht, -, hfixups⟩ := hmem s hs
    exact (hfixups f hf).elim (ha.fixups t ht f) (hfix f)

theorem insert {name : String} (hn : IsName name) (d : KnownSymbol) :
    WellNamed { a with symbols := a.symbols.insert name d } := by
  refine ⟨ha.distinct, ha.sections, ?_, ha.fixups⟩
  intro e he
  rcases NameMap.mem_insertEntry he with rfl | he
  · exact hn
  · exact ha.symbols e he

theorem inst {i : Inst} (hi : Spelled (Statement.inst i).names) (h : a.inst i = .ok b) :
    b.WellNamed := by
  unfold Assembly.inst at h
  split at h
  · cases h
  · next word fixups henc =>
    cases h
    refine ha.append fun f hf => ?_
    obtain ⟨g, hg, rfl⟩ := List.mem_map.mp hf
    have hoperand := Inst.encode_values henc g hg
    exact fun n hn => hi n (List.mem_flatMap.mpr ⟨_, hoperand, hn⟩)

theorem value {e : Expr} (he : Spelled e.names) {size : Nat} (h : a.value e size = .ok b) :
    b.WellNamed := by
  unfold Assembly.value at h
  split at h
  · cases h
  · split at h <;> cases h
    · exact ha.append fun f hf => nomatch hf
    · exact ha.append (List.forall_mem_singleton.mpr he)

theorem values {es : List Expr} (hes : ∀ e ∈ es, Spelled e.names) {size : Nat}
    (h : a.values size es = .ok b) : b.WellNamed := by
  induction es generalizing a with
  | nil =>
    cases h
    exact ha
  | cons e rest ih =>
    obtain ⟨he, hrest⟩ := List.forall_mem_cons.mp hes
    obtain ⟨c, hc, h⟩ := Except.bind_eq_ok_iff.mp h
    exact ih (ha.value he hc) hrest h

theorem statement {s : Statement} (hs : Spelled s.names) (h : a.statement s = .ok b) :
    b.WellNamed := by
  cases s with
  | label name =>
    obtain ⟨isGlobal, rfl⟩ := label_eq_ok h
    exact ha.insert (hs name List.mem_cons_self) _
  | enter name =>
    cases h
    exact ha.enter (hs name List.mem_cons_self)
  | makeGlobal name =>
    cases h
    exact ha.insert (hs name List.mem_cons_self) _
  | data size es =>
    exact ha.values (fun e he n hn => hs n (List.mem_flatMap.mpr ⟨e, he, hn⟩)) h
  | inst i => exact ha.inst hs h

end WellNamed

theorem statements_wellNamed {a b : Assembly} (ha : a.WellNamed) {program : List Statement}
    (hp : ∀ s ∈ program, Spelled s.names) (h : a.statements program = .ok b) : b.WellNamed := by
  induction program generalizing a with
  | nil =>
    cases h
    exact ha
  | cons s rest ih =>
    obtain ⟨hs, hrest⟩ := List.forall_mem_cons.mp hp
    obtain ⟨c, hc, h⟩ := Except.bind_eq_ok_iff.mp h
    exact ih (ha.statement hs hc) hrest h

end Assembly

/-! ## Objects -/

/-- What the names in an object can be relied on for. -/
structure Object.WellFormed (o : Object RelocType) : Prop where
  distinctSections : (o.sections.map (·.name)).Nodup
  sectionNames : ∀ s ∈ o.sections, IsName s.name
  symbolNames : ∀ s ∈ o.symbols, IsName s.name
  homes : ∀ s ∈ o.symbols, ∀ i, s.home = some i → i < o.sections.length
  listed : ∀ s ∈ o.sections, ∀ r ∈ s.relocs, r.symbol ∈ o.symbols.map (·.name)

namespace Assembly

theorem mem_unlistedNames {a : Assembly} {sections : List (Section RelocType)} {n : String} :
    n ∈ a.unlistedNames sections ↔
      a.symbols.find? n = none ∧ ∃ s ∈ sections, ∃ r ∈ s.relocs, r.symbol = n := by
  unfold unlistedNames
  rw [NameMap.mem_names_ofList]
  simp only [List.map_map, List.mem_map, List.mem_filter, List.mem_flatMap, NameMap.contains,
    Function.comp_apply, exists_eq_right, Bool.not_eq_true', Option.isSome_eq_false_iff,
    Option.isNone_iff_eq_none]
  exact and_comm

theorem names_listedSymbols (a : Assembly) :
    a.listedSymbols.map (·.name) = a.symbols.entries.map (·.1) := by
  rw [listedSymbols, List.map_map]
  rfl

theorem mem_sections_object {a : Assembly} {t : Section RelocType} (h : t ∈ a.object.sections) :
    ∃ i s, a.sections[i]? = some s ∧ t = a.closed i s := by
  obtain ⟨i, hi, rfl⟩ := List.mem_mapIdx.mp h
  exact ⟨i, _, List.getElem?_eq_getElem hi, rfl⟩

theorem Sound.homes_object {a : Assembly} (hs : a.Sound) :
    ∀ s ∈ a.object.symbols, ∀ i, s.home = some i → i < a.object.sections.length := by
  intro s hsym i hi
  rcases List.mem_append.mp hsym with h | h
  · rw [Assembly.object, List.length_mapIdx]
    exact hs.home_lt h hi
  · obtain ⟨n, -, rfl⟩ := List.mem_map.mp h
    cases hi

/-- Every name that a relocation refers to is in the list of symbols. -/
theorem listed_object (a : Assembly) :
    ∀ t ∈ a.object.sections, ∀ r ∈ t.relocs, r.symbol ∈ a.object.symbols.map (·.name) := by
  intro t ht r hr
  rw [Assembly.object, List.map_append, List.mem_append, names_listedSymbols]
  cases hf : a.symbols.find? r.symbol with
  | some d => exact .inl ((NameMap.find?_isSome_iff _ _).mp (by rw [hf]; rfl))
  | none =>
    have hunlisted := mem_unlistedNames.mpr ⟨hf, t, ht, r, hr, rfl⟩
    exact .inr (List.mem_map.mpr ⟨_, List.mem_map_of_mem hunlisted, rfl⟩)

theorem WellNamed.object {a : Assembly} (hs : a.Sound) (ha : a.WellNamed) :
    a.object.WellFormed := by
  have hrelocs : ∀ t ∈ a.object.sections, ∀ r ∈ t.relocs, IsName r.symbol := by
    intro t ht r hr
    obtain ⟨i, s, hi, rfl⟩ := mem_sections_object ht
    obtain ⟨f, hf, hr⟩ := List.mem_filterMap.mp hr
    exact ha.fixups s (List.mem_of_getElem? hi) f hf _ (symbol_of_deferredReloc? hr)
  constructor
  case distinctSections =>
    have hnames : a.object.sections.map (·.name) = a.sections.map (·.name) := by
      apply List.ext_getElem?
      intro i
      simp [Assembly.object, closed, Function.comp_def]
    exact hnames ▸ ha.distinct
  case sectionNames =>
    intro t ht
    obtain ⟨i, s, hi, rfl⟩ := mem_sections_object ht
    exact ha.sections s (List.mem_of_getElem? hi)
  case symbolNames =>
    intro s hsym
    rcases List.mem_append.mp hsym with h | h
    · obtain ⟨e, he, rfl⟩ := List.mem_map.mp h
      exact ha.symbols e he
    · obtain ⟨n, hn, rfl⟩ := List.mem_map.mp h
      obtain ⟨-, t, ht, r, hr, rfl⟩ := mem_unlistedNames.mp hn
      exact hrelocs t ht r hr
  case homes => exact hs.homes_object
  case listed => exact a.listed_object

end Assembly

theorem assemble_wellFormed {localPc : Bool} {source : String} {o : Object RelocType}
    (h : assemble localPc source = .ok o) : o.WellFormed := by
  obtain ⟨program, hprogram, h⟩ := Except.bind_eq_ok_iff.mp h
  obtain ⟨a, ha, h⟩ := Except.bind_eq_ok_iff.mp h
  have hsound := (Assembly.statements_reaches ha).sound (Assembly.sound_start localPc)
  have hspelled := Source.spelled_readProgram (Except.mapError_eq_ok_iff.mp hprogram)
  obtain ⟨-, rfl⟩ := (Assembly.finish_eq_ok_iff hsound).mp h
  exact (Assembly.statements_wellNamed (Assembly.wellNamed_start localPc) hspelled ha).object hsound

end Dlx
