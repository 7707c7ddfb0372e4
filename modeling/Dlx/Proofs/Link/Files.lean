import Dlx.Proofs.Elf.Narrowing
import Dlx.Proofs.Link.Agreement
import Dlx.Proofs.Link.Alike

/-!
# Linking object files

An assembled object can be given to a linker as it is or as a file. The file differs in three ways:
local symbols come first, every section has a symbol of its name, and addends are narrow. The order
cannot be seen in a link. The names of sections can, where a relocation refers to one; so can narrow
addends, where the field takes more of a value than its low word.

Results:
* `alike_ofFile`: an object read from its file links like the object with its section names.
* `alike_withSectionNames`: the section names change nothing unless a relocation refers to one.
* `linking_files_eq_linking_objects`: so files and objects of assembled sources link alike.
* `section_name_known_from_file_only`, `wide_addend_cut_in_file`: sources for which they do not.
-/
namespace Dlx

/-! ## Addends -/

/-- The types whose field depends on the low word of a value only. -/
def RelocType.usesLowWord : RelocType → Bool
  | .none | .abs32 | .lo16 | .hi16 => true
  | .abs64 | .pc16 | .pc26 | .abs26 => false

theorem RelocType.fieldValue_of_low_word {ty : RelocType} (h : ty.usesLowWord = true) {v w : UInt64}
    (hvw : v.toUInt32 = w.toUInt32) : ty.rule.fieldValue v = ty.rule.fieldValue w := by
  have hmod : v.toNat % capacity 32 = w.toNat % capacity 32 := by
    have := congrArg UInt32.toNat hvw
    rwa [UInt64.toNat_toUInt32, UInt64.toNat_toUInt32] at this
  have hnone : v.toNat % capacity 0 = w.toNat % capacity 0 := by
    rw [show capacity 0 = 1 from rfl, Nat.mod_one, Nat.mod_one]
  cases ty with
  | none | abs32 | lo16 | hi16 =>
    simp only [rule, FieldRule.inWord, FieldRule.fieldValue, FieldPart.select, FieldRange.accepts,
      hnone, hmod, hvw, if_true]
  | abs64 | pc16 | pc26 | abs26 => cases h

theorem toUInt32_relocValue (ty : RelocType) (symbol place : UInt32) {a b : Int64}
    (h : a.toUInt64.toUInt32 = b.toUInt64.toUInt32) :
    (relocValue ty symbol place a).toUInt32 = (relocValue ty symbol place b).toUInt32 := by
  unfold relocValue
  dsimp only
  split <;>
    simp only [Int64.toUInt64_add, Int64.toUInt64_sub, UInt64.toUInt32_add, UInt64.toUInt32_sub, h]

theorem RelocType.sameEffect_narrow {ty : RelocType} {a : Int64}
    (h : ty.usesLowWord = false → -0x80000000 ≤ a.toInt ∧ a.toInt < 0x80000000) :
    ty.SameEffect (narrow a) a := by
  intro symbol place
  cases hlow : ty.usesLowWord with
  | true =>
    exact fieldValue_of_low_word hlow (toUInt32_relocValue ty symbol place (toUInt32_narrow a))
  | false => rw [narrow_eq_self (h hlow)]

/-- Addends that count beyond their low word fit into a word with sign. -/
def Object.AddendsFit (o : Object RelocType) : Prop :=
  ∀ s ∈ o.sections, ∀ r ∈ s.relocs, r.type.usesLowWord = false →
    -0x80000000 ≤ r.addend.toInt ∧ r.addend.toInt < 0x80000000

instance (o : Object RelocType) : Decidable o.AddendsFit :=
  inferInstanceAs (Decidable (∀ s ∈ o.sections, ∀ r ∈ s.relocs, _ → _))

/-! ## Symbols -/

theorem localSymbol?_eq_none {symbols : List Symbol} {name : String}
    (h : ∀ s ∈ symbols, s.isGlobal = true ∨ s.name ≠ name) : localSymbol? symbols name = none := by
  rw [localSymbol?, List.find?_eq_none]
  intro s hs
  rcases h s (List.mem_reverse.mp hs) with hg | hn
  · simp [hg]
  · simp [hn]

/-- Local symbols may be moved to the front. -/
theorem localSymbol?_orderedSymbols (o : Object RelocType) (name : String) :
    localSymbol? (Elf.orderedSymbols o) name = localSymbol? o.symbols name := by
  have hglobals : localSymbol? (o.symbols.filter (·.isGlobal)) name = none :=
    localSymbol?_eq_none fun s hs => .inl (List.mem_filter.mp hs).2
  rw [Elf.orderedSymbols, Linker.localSymbol?_append, hglobals, Option.none_or, localSymbol?,
    localSymbol?, ← List.filter_reverse, List.find?_filter]
  congr 1
  funext s
  cases s.isGlobal <;> simp

theorem exists_of_mem_standIns {κ : Type} {sections : List (Section κ)} {y : Symbol}
    (h : y ∈ Elf.standIns sections) :
    ∃ i s, sections[i]? = some s ∧ y = ⟨s.name, some i, 0, false⟩ := by
  obtain ⟨⟨s, i⟩, hs, rfl⟩ := List.mem_map.mp h
  exact ⟨i, s, List.mem_zipIdx_iff_getElem?.mp hs, rfl⟩

theorem filter_isGlobal_standIns {κ : Type} (sections : List (Section κ)) :
    (Elf.standIns sections).filter (·.isGlobal) = [] := by
  rw [List.filter_eq_nil_iff]
  intro y hy
  obtain ⟨i, s, -, rfl⟩ := exists_of_mem_standIns hy
  exact Bool.false_ne_true

theorem filter_isGlobal_orderedSymbols (o : Object RelocType) :
    (Elf.orderedSymbols o).filter (·.isGlobal) = o.symbols.filter (·.isGlobal) := by
  simp [Elf.orderedSymbols, List.filter_filter]

/-! ## Objects from files -/

/-- An object in which every section has a local symbol of its name, in front of all others. -/
def Object.withSectionNames (o : Object UInt32) : Object UInt32 :=
  { o with symbols := Elf.standIns o.sections ++ o.symbols }

/-- What the file of an object holds for a linker. -/
def Object.ofFile (o : Object RelocType) : Object UInt32 :=
  ⟨o.narrowed.withCodes.sections, Elf.standIns o.sections ++ Elf.orderedSymbols o⟩

/-- No relocation refers to a section by its name, unless a local label has that name too. -/
def Object.NamesNoSection (o : Object RelocType) : Prop :=
  ∀ s ∈ o.sections, ∀ r ∈ s.relocs, r.symbol ∈ o.sections.map (·.name) →
    ∃ y ∈ o.symbols, y.name = r.symbol ∧ y.isGlobal = false ∧ y.home.isSome

instance (o : Object RelocType) : Decidable o.NamesNoSection :=
  inferInstanceAs (Decidable (∀ s ∈ o.sections, ∀ r ∈ s.relocs, _ → ∃ y ∈ o.symbols, _))

theorem forall₂_map_map {α β γ : Type} {R : β → γ → Prop} {f : α → β} {g : α → γ} {l : List α}
    (h : ∀ a ∈ l, R (f a) (g a)) : List.Forall₂ R (l.map f) (l.map g) := by
  rw [List.forall₂_map_left_iff, List.forall₂_map_right_iff, List.forall₂_same]
  exact h

theorem standIns_withCodes (o : Object RelocType) :
    Elf.standIns o.withCodes.sections = Elf.standIns o.sections :=
  Elf.standIns_map fun _ _ => rfl

theorem alike_ofFile {o : Object RelocType} (h : o.AddendsFit) :
    o.ofFile.Alike o.withCodes.withSectionNames where
  sections := by
    change List.Forall₂ _ ((o.sections.map Section.narrowed).map Section.withCodes) _
    rw [List.map_map]
    refine forall₂_map_map fun s hs => ⟨rfl, rfl, ?_⟩
    change List.Forall₂ _ ((s.relocs.map Reloc.narrowed).map Reloc.withCode) _
    rw [List.map_map]
    refine forall₂_map_map fun r hr => ⟨rfl, rfl, rfl, ?_⟩
    intro ty hty
    cases hty.symm.trans (RelocType.ofCode?_code r.type)
    exact RelocType.sameEffect_narrow (h s hs r hr)
  globals := by
    simp only [Object.ofFile, Object.withSectionNames, List.filter_append,
      filter_isGlobal_standIns, filter_isGlobal_orderedSymbols]
    rfl
  locals s hs r hr := by
    simp only [Object.ofFile, Object.withSectionNames, Linker.localSymbol?_append,
      localSymbol?_orderedSymbols, standIns_withCodes]
    rfl

theorem alike_withSectionNames {o : Object RelocType} (h : o.NamesNoSection) :
    o.withCodes.withSectionNames.Alike o.withCodes where
  sections := List.forall₂_same.mpr fun s _ =>
    ⟨rfl, rfl, List.forall₂_same.mpr fun _ _ => ⟨rfl, rfl, rfl, fun _ _ _ _ => rfl⟩⟩
  globals := by
    rw [Object.withSectionNames, List.filter_append, filter_isGlobal_standIns, List.nil_append]
  locals t ht q hq := by
    obtain ⟨s, hs, rfl⟩ := List.mem_map.mp ht
    obtain ⟨r, hr, rfl⟩ := List.mem_map.mp hq
    change localSymbol? (Elf.standIns o.withCodes.sections ++ o.symbols) r.symbol =
      localSymbol? o.symbols r.symbol
    rw [Linker.localSymbol?_append, standIns_withCodes]
    by_cases hsection : r.symbol ∈ o.sections.map (·.name)
    -- The label comes after the symbol of the section, and the last one counts.
    · obtain ⟨y, hy, hname, hlocal, hhome⟩ := h s hs r hr hsection
      have hfound : (localSymbol? o.symbols r.symbol).isSome :=
        List.find?_isSome.mpr ⟨y, List.mem_reverse.mpr hy, by simp [hname, hlocal, hhome]⟩
      exact Option.or_of_isSome hfound
    · have hnone : localSymbol? (Elf.standIns o.sections) r.symbol = none := by
        refine localSymbol?_eq_none fun y hy => .inr fun hname => hsection ?_
        rw [← hname, ← Elf.names_standIns]
        exact List.mem_map_of_mem hy
      rw [hnone, Option.or_none]

/-! ## Links -/

namespace Linker

/-- Adds objects one after the other. -/
def addObjects (l : Linker) (objects : List (Object UInt32)) : Linker :=
  objects.foldl addObject l

/-- Adds object files one after the other. -/
def addFiles (l : Linker) (files : List Bytes) : Except LinkError Linker := files.foldlM addFile l

theorem addObjects_eq (l : Linker) (objects : List (Object UInt32)) :
    l.addObjects objects = ⟨l.objects ++ objects, l.absolutes⟩ := by
  unfold addObjects
  induction objects generalizing l with
  | nil => rw [List.append_nil]; rfl
  | cons o rest ih =>
    rw [List.foldl_cons, ih, addObject, List.append_assoc]
    rfl

theorem addFile_of_read (l : Linker) {bs : Bytes} {o : Object UInt32}
    (h : Elf.readObject bs = .ok o) : l.addFile bs = .ok (l.addObject o) := by
  rw [addFile, h]

theorem addFiles_eq (l : Linker) {objects : List (Object RelocType)}
    (h : ∀ o ∈ objects, o.WellFormed) (hl : ∀ o ∈ objects, Elf.WithinLimits o) :
    l.addFiles (objects.map Elf.writeObject) = .ok (l.addObjects (objects.map Object.ofFile)) := by
  unfold addFiles addObjects
  induction objects generalizing l with
  | nil => rfl
  | cons o rest ih =>
    obtain ⟨ho, hrest⟩ := List.forall_mem_cons.mp h
    obtain ⟨hlo, hlrest⟩ := List.forall_mem_cons.mp hl
    have hadd : l.addFile (Elf.writeObject o) = .ok (l.addObject o.ofFile) :=
      l.addFile_of_read (Elf.readObject_of_wellFormed ho hlo)
    rw [List.map_cons, List.foldlM_cons, hadd, List.map_cons, List.foldl_cons]
    exact ih _ hrest hlrest

theorem homes_standIns {κ : Type} {sections : List (Section κ)} {symbols : List Symbol}
    (h : ∀ y ∈ symbols, ∀ i, y.home = some i → i < sections.length) :
    ∀ y ∈ Elf.standIns sections ++ symbols, ∀ i, y.home = some i → i < sections.length := by
  intro y hy i hi
  rcases List.mem_append.mp hy with hy | hy
  · obtain ⟨j, s, hj, rfl⟩ := exists_of_mem_standIns hy
    cases hi
    exact (List.getElem?_eq_some_iff.mp hj).1
  · exact h y hy i hi

/-- The ways to give assembled objects to a linker differ in symbols and addends; in all of them the
symbols lie in sections that exist. -/
theorem homesExist_map {objects : List (Object RelocType)} {f : Object RelocType → Object UInt32}
    (hlength : ∀ o, (f o).sections.length = o.sections.length)
    (hhomes : ∀ o ∈ objects, ∀ y ∈ (f o).symbols, ∀ i, y.home = some i → i < o.sections.length) :
    HomesExist (objects.map f) := by
  intro t ht y hy i hi
  obtain ⟨o, ho, rfl⟩ := List.mem_map.mp ht
  rw [hlength]
  exact hhomes o ho y hy i hi

theorem length_withCodes (o : Object RelocType) :
    o.withCodes.sections.length = o.sections.length := List.length_map _

theorem length_ofFile (o : Object RelocType) : o.ofFile.sections.length = o.sections.length := by
  rw [Object.ofFile, length_withCodes, sections_narrowed, List.length_map]

section

variable {objects : List (Object RelocType)} (h : ∀ o ∈ objects, o.WellFormed)
  (absolutes : NameMap UInt32) (options : LinkSettings)
include h

theorem homesExist_withSectionNames :
    HomesExist (objects.map fun o => o.withCodes.withSectionNames) := by
  refine homesExist_map length_withCodes fun o ho => ?_
  rw [Object.withSectionNames, standIns_withCodes]
  exact homes_standIns (h o ho).homes

theorem link_ofFile (ha : ∀ o ∈ objects, o.AddendsFit) :
    (Linker.mk (objects.map Object.ofFile) absolutes).link options =
      (Linker.mk (objects.map fun o => o.withCodes.withSectionNames) absolutes).link options := by
  refine link_alike ?_ ?_ (forall₂_map_map fun o ho => alike_ofFile (ha o ho)) absolutes options
  · refine homesExist_map length_ofFile fun o ho => homes_standIns fun y hy => ?_
    exact (h o ho).homes y (Elf.mem_orderedSymbols.mp hy)
  · exact homesExist_withSectionNames h

theorem link_withSectionNames (hn : ∀ o ∈ objects, o.NamesNoSection) :
    (Linker.mk (objects.map fun o => o.withCodes.withSectionNames) absolutes).link options =
      (Linker.mk (objects.map Object.withCodes) absolutes).link options := by
  refine link_alike ?_ ?_ (forall₂_map_map fun o ho => alike_withSectionNames (hn o ho)) absolutes
    options
  · exact homesExist_withSectionNames h
  · exact homesExist_map length_withCodes fun o ho => (h o ho).homes

end

end Linker

/-- Assembled sources within the limits of object files can be linked through such files. The link
has the outcome, image or error, of linking the objects with a local symbol of its name for each
section, and that of linking the objects as they are unless a relocation refers to a section by its
name. -/
theorem linking_files_eq_linking_objects (sources : List (Bool × String))
    (objects : List (Object RelocType))
    (h : sources.mapM (fun source => assemble source.1 source.2) = .ok objects)
    (hlimits : ∀ o ∈ objects, Elf.WithinLimits o) (haddends : ∀ o ∈ objects, o.AddendsFit)
    (absolutes : NameMap UInt32) (options : LinkSettings) :
    ∃ l, (Linker.mk [] absolutes).addFiles (objects.map Elf.writeObject) = .ok l ∧
      l.link options = ((Linker.mk [] absolutes).addObjects
        (objects.map fun o => o.withCodes.withSectionNames)).link options ∧
      ((∀ o ∈ objects, o.NamesNoSection) →
        l.link options =
          ((Linker.mk [] absolutes).addObjects (objects.map Object.withCodes)).link options) := by
  have hformed : ∀ o ∈ objects, o.WellFormed := forall_of_mapM h fun _ _ ho => assemble_wellFormed ho
  refine ⟨_, Linker.addFiles_eq _ hformed hlimits, ?_⟩
  simp only [Linker.addObjects_eq, List.nil_append]
  have hfile := Linker.link_ofFile hformed absolutes options haddends
  refine ⟨hfile, fun hnames => ?_⟩
  exact hfile.trans (Linker.link_withSectionNames hformed absolutes options hnames)

/-- Two units with a call from one to the other. The first has a label with the name of a section,
not at its start, and an addend that no word holds. -/
def labelAndCall : List (Bool × String) :=
  [(true, ".globl main\nmain: jal f\n.data\n.word 7\n.data: .dword .data\n.word x+4294967300"),
   (false, ".globl f\nf: jr r31")]

def labelAndCallObjects : List (Object RelocType) :=
  [⟨[⟨".text", .text, [0, 0, 0, 12], [⟨0, "f", .pc26, 0⟩]⟩,
     ⟨".data", .data, [7, 0, 0, 0, 0, 0, 0, 0, 0, 0, 0, 0, 0, 0, 0, 0],
       [⟨4, ".data", .abs64, 0⟩, ⟨12, "x", .abs32, 4294967300⟩]⟩],
    [⟨".data", some 1, 4, false⟩, ⟨"main", some 0, 0, true⟩, ⟨"f", none, 0, true⟩,
     ⟨"x", none, 0, true⟩]⟩,
   ⟨[⟨".text", .text, [0, 0, 224, 75], []⟩], [⟨"f", some 0, 0, true⟩]⟩]

theorem withinLimits_labelAndCall : ∀ o ∈ labelAndCallObjects, Elf.WithinLimits o :=
  List.forall_mem_cons.mpr ⟨⟨by decide +kernel, by decide, by decide⟩,
    List.forall_mem_singleton.mpr ⟨by decide +kernel, by decide, by decide⟩⟩

theorem linking_files_eq_linking_objects_labelAndCall :
    labelAndCall.mapM (fun source => assemble source.1 source.2) = .ok labelAndCallObjects ∧
      (∀ o ∈ labelAndCallObjects, Elf.WithinLimits o) ∧
      (∀ o ∈ labelAndCallObjects, o.AddendsFit) ∧
      (∀ o ∈ labelAndCallObjects, o.NamesNoSection) ∧
      ∃ l, (Linker.mk [] (.ofList [("x", 16)])).addFiles
          (labelAndCallObjects.map Elf.writeObject) = .ok l ∧
        l.link ⟨0x1000, none⟩ = ((Linker.mk [] (.ofList [("x", 16)])).addObjects
          (labelAndCallObjects.map Object.withCodes)).link ⟨0x1000, none⟩ := by
  have hassemble := Except.eq_ok_of_toOption (show (labelAndCall.mapM fun source =>
    assemble source.1 source.2).toOption = some labelAndCallObjects by decide +kernel)
  have haddends : ∀ o ∈ labelAndCallObjects, o.AddendsFit := by decide +kernel
  have hnames : ∀ o ∈ labelAndCallObjects, o.NamesNoSection := by decide +kernel
  obtain ⟨l, hl, -, hlink⟩ := linking_files_eq_linking_objects labelAndCall labelAndCallObjects
    hassemble withinLimits_labelAndCall haddends (.ofList [("x", 16)]) ⟨0x1000, none⟩
  exact ⟨hassemble, withinLimits_labelAndCall, haddends, hnames, l, hl, hlink hnames⟩

/-- The object of a source that refers to its own section by name. -/
def selfReference : Object RelocType :=
  ⟨[⟨".text", .text, [0, 0, 0, 0], [⟨0, ".text", .abs32, 0⟩]⟩], [⟨".text", none, 0, true⟩]⟩

/-- What is read from its file: the section has a symbol there. -/
def selfReferenceRead : Object UInt32 :=
  ⟨selfReference.withCodes.sections, [⟨".text", some 0, 0, false⟩, ⟨".text", none, 0, true⟩]⟩

/-- A source that refers to its own section by name can be linked from its file, but not as an
object. -/
theorem section_name_known_from_file_only :
    assemble true ".word .text" = .ok selfReference ∧ Elf.WithinLimits selfReference ∧
      selfReference.AddendsFit ∧
      (∃ l image, Linker.empty.addFile (Elf.writeObject selfReference) = .ok l ∧
        l.link ⟨0, none⟩ = .ok image) ∧
      (Linker.empty.addObject selfReference.withCodes).link ⟨0, none⟩ =
        .error (.undefinedSymbol ".text") := by
  have hread := Except.eq_ok_of_toOption (show (Elf.readObject (Elf.writeObject selfReference)).toOption =
    some selfReferenceRead by decide +kernel)
  have hadd := Linker.empty.addFile_of_read hread
  exact ⟨Except.eq_ok_of_toOption (by decide +kernel), ⟨by decide +kernel, by decide, by decide⟩,
    by decide +kernel, ⟨_, ⟨0, 0, 4, [0, 0, 0, 0], .empty⟩, hadd, rfl⟩, rfl⟩

/-- The object of a source with an addend that is wider than a word, where the whole value is
stored. -/
def wideAddend : Object RelocType :=
  ⟨[⟨".text", .text, [0, 0, 0, 0, 0, 0, 0, 0], [⟨0, "x", .abs64, 0x100000000⟩]⟩],
    [⟨"x", none, 0, true⟩]⟩

/-- What is read from its file: nothing of the addend is left. -/
def wideAddendRead : Object UInt32 :=
  ⟨[⟨".text", .text, [0, 0, 0, 0, 0, 0, 0, 0], [⟨0, "x", 2, 0⟩]⟩],
    [⟨".text", some 0, 0, false⟩, ⟨"x", none, 0, true⟩]⟩

/-- A source with such an addend is linked to other bytes from its file than as an object. -/
theorem wide_addend_cut_in_file :
    assemble true ".dword x+4294967296" = .ok wideAddend ∧ Elf.WithinLimits wideAddend ∧
      wideAddend.NamesNoSection ∧ ¬ wideAddend.AddendsFit ∧
      (∃ l image, (Linker.mk [] (.ofList [("x", 16)])).addFile (Elf.writeObject wideAddend) = .ok l ∧
        l.link ⟨0, none⟩ = .ok image ∧ image.bytes = [16, 0, 0, 0, 0, 0, 0, 0]) ∧
      ∃ image, ((Linker.mk [] (.ofList [("x", 16)])).addObject wideAddend.withCodes).link ⟨0, none⟩ =
        .ok image ∧ image.bytes = [16, 0, 0, 0, 1, 0, 0, 0] := by
  have hread := Except.eq_ok_of_toOption (show (Elf.readObject (Elf.writeObject wideAddend)).toOption =
    some wideAddendRead by decide +kernel)
  have hadd := (Linker.mk [] (.ofList [("x", 16)])).addFile_of_read hread
  exact ⟨Except.eq_ok_of_toOption (by decide +kernel), ⟨by decide +kernel, by decide, by decide⟩,
    by decide +kernel, by decide +kernel, ⟨_, _, hadd, rfl, rfl⟩, _, rfl, rfl⟩

end Dlx
