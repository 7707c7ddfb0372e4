import Dlx.Proofs.Link.Planning

/-!
# When a link succeeds

A link fails while symbols are entered, while a relocation is planned, or for want of the entry. It
never fails while bytes are written, since planning has checked every patch against its section and
the sections lie in the image. The entry is looked up last: a link that fails for want of it has
written its whole image by then, and every other link that fails has written nothing.

Results:
* `link_eq_ok_iff`: the conditions of success, and the image. Its bytes are those of the sections,
  each with its own relocations applied, laid out.
* `link_succeeds_iff`: the conditions in terms of names, codes, offsets and exact values, that no
  write fails, and which links that fail have written.
* `callAcross_fails_after_writing`: one that has.
-/
namespace Dlx

theorem RelocType.ofCode?_eq_some_iff {code : UInt32} {ty : RelocType} :
    RelocType.ofCode? code = some ty ↔ code = ty.code := by
  constructor
  · intro h
    rw [← UInt32.toNat_inj]
    unfold RelocType.ofCode? at h
    split at h <;> cases h <;> assumption
  · rintro rfl
    exact RelocType.ofCode?_code ty

namespace Linker

/-! ## The linked image -/

/-- What the relocations of a section write into it. -/
def sectionWrites (l : Linker) (base : UInt32) (s : SectionAt) : List Write :=
  match l.place base s.object s.index with
  | some p => s.body.relocs.filterMap (relocWrite? p.address (l.address? base s.object))
  | none => []

/-- The objects with the relocations of each section applied to it. -/
def relocated (l : Linker) (base : UInt32) : List (Object UInt32) :=
  mapSections (fun s => { s.body with data := writeAll s.body.data (l.sectionWrites base s) })
    l.objects

/-- The address at which the image is entered. -/
def entryPoint? (l : Linker) (options : LinkSettings) : Option UInt32 :=
  match options.entry with
  | some name => l.globalAddress? options.base name
  | none => some ((l.globalAddress? options.base "main").getD options.base)

/-- Every relocation of every section can be applied. -/
def AllApplicable (l : Linker) (base : UInt32) : Prop :=
  ∀ s ∈ allSections l.objects,
    SectionApplicable (l.place base s.object) (l.address? base s.object) s.index s.body

theorem sectionWrites_within {l : Linker} {base : UInt32} (h : l.AllApplicable base)
    {s : SectionAt} (hs : s ∈ allSections l.objects) :
    ∀ w ∈ l.sectionWrites base s, w.Within s.body.data.length := by
  intro w hw
  unfold sectionWrites at hw
  cases hp : l.place base s.object s.index with
  | none => simp [hp] at hw
  | some p =>
    rw [hp] at hw
    obtain ⟨r, hr, hrw⟩ := List.mem_filterMap.mp hw
    have hin := (h s hs p hp r hr).within hrw
    -- The placement that was found is that of this section.
    obtain ⟨o, ho, hos⟩ := mem_allSections.mp hs
    obtain ⟨p', hp', hlen⟩ := exists_placement base ho hos
    rw [← place, hp, Option.some.injEq] at hp'
    rwa [hp', hlen] at hin

theorem writeAll_planned {l : Linker} {base : UInt32} (h : l.AllApplicable base) :
    writeAll (layout l.objects).bytes (((allSections l.objects).flatMap fun s =>
        sectionPatches (l.place base s.object) (l.address? base s.object) s.index s.body).map
          Patch.write) =
      (layout (l.relocated base)).bytes := by
  let start : SectionAt → Nat := fun s => ((l.place base s.object s.index).map (·.offset)).getD 0
  have hstart : ∀ p ∈ (layout l.objects).all, start p.sect = p.offset := by
    intro p hp
    simp only [start, place, placement?_of_mem hp]
    rfl
  have hwrites : ∀ s, (sectionPatches (l.place base s.object) (l.address? base s.object) s.index
      s.body).map Patch.write = (l.sectionWrites base s).map (·.shift (start s)) := by
    intro s
    simp only [sectionPatches, sectionWrites, start]
    cases l.place base s.object s.index with
    | none => rfl
    | some p =>
      simp only [List.map_filterMap, write_patchOf?]
      rfl
  rw [List.map_flatMap]
  simp only [hwrites]
  exact writeAll_layout_bytes hstart fun s hs => sectionWrites_within h hs

theorem entryAddress_eq_ok_iff {l : Linker} {options : LinkSettings} (hh : HomesExist l.objects)
    {a : Addresses} (ha : collect (l.place options.base) 0 l.objects l.absolutes = .ok a)
    {entry : UInt32} :
    entryAddress a.globals options = .ok entry ↔ l.entryPoint? options = some entry := by
  unfold entryAddress entryPoint?
  simp only [globals_of_collect hh ha]
  cases options.entry with
  | none => simp
  | some name =>
    simp only
    cases l.globalAddress? options.base name <;> simp

theorem entryAddress_eq_error {l : Linker} {options : LinkSettings} (hh : HomesExist l.objects)
    {a : Addresses} (ha : collect (l.place options.base) 0 l.objects l.absolutes = .ok a)
    {e : LinkError} (he : entryAddress a.globals options = .error e) :
    ∃ name, options.entry = some name ∧ name ∉ l.definedNames ∧ e = .undefinedSymbol name := by
  unfold entryAddress at he
  simp only [globals_of_collect hh ha] at he
  cases hentry : options.entry with
  | none => simp [hentry] at he
  | some name =>
    simp only [hentry] at he
    cases haddr : l.globalAddress? options.base name with
    | some address => simp [haddr] at he
    | none =>
      simp only [haddr, Except.error.injEq] at he
      exact ⟨name, rfl, by simp [mem_definedNames_iff options.base hh, haddr], he.symm⟩

/-- A link is four steps, of which each can fail. -/
theorem link_eq (l : Linker) (options : LinkSettings) :
    l.link options = (collect (l.place options.base) 0 l.objects l.absolutes >>= fun a =>
      planObjects (l.place options.base) a 0 (l.objects.zip a.locals) >>= fun patches =>
      applyPatches (layout l.objects).bytes patches >>= fun bytes =>
      (entryAddress a.globals options).map fun entry =>
        ⟨options.base, entry, UInt32.ofNat (layout l.objects).textSize, bytes, a.globals⟩) := by
  rfl

/-- Once the symbols are entered and all relocations apply, only the entry can be missing. -/
theorem link_of_collect {l : Linker} {options : LinkSettings} (hh : HomesExist l.objects)
    {a : Addresses} (ha : collect (l.place options.base) 0 l.objects l.absolutes = .ok a)
    (happ : l.AllApplicable options.base) :
    l.link options = (entryAddress a.globals options).map fun entry =>
      ⟨options.base, entry, UInt32.ofNat (layout l.objects).textSize,
        (layout (l.relocated options.base)).bytes, a.globals⟩ := by
  have hp := (plan_of_collect hh ha).mpr ⟨happ, rfl⟩
  have hb := applyPatches_planned happ
  rw [writeAll_planned happ] at hb
  simp only [link_eq, ha, hp, hb, bind, Except.bind]

theorem link_eq_ok_iff {l : Linker} {options : LinkSettings} (hh : HomesExist l.objects)
    {image : Image} :
    l.link options = .ok image ↔
      l.definedNames.Nodup ∧ l.AllApplicable options.base ∧
      ∃ entry, l.entryPoint? options = some entry ∧
        image = ⟨options.base, entry, UInt32.ofNat (layout l.objects).textSize,
          (layout (l.relocated options.base)).bytes,
          l.absolutes.insertAll (globalDefinitions (l.place options.base) 0 l.objects)⟩ := by
  rw [← collect_isOk_iff options.base hh]
  constructor
  · intro h
    have h' := h
    unfold link at h'
    simp only [Except.bind_eq_ok_iff] at h'
    obtain ⟨a, ha, patches, hp, -⟩ := h'
    have happ := ((plan_of_collect hh ha).mp hp).1
    rw [link_of_collect hh ha happ] at h
    cases he : entryAddress a.globals options with
    | error e => simp [he, Except.map] at h
    | ok entry =>
      rw [he, globals_eq_of_collect hh ha] at h
      exact ⟨⟨a, ha⟩, happ, entry, (entryAddress_eq_ok_iff hh ha).mp he, (Except.ok.inj h).symm⟩
  · rintro ⟨⟨a, ha⟩, happ, entry, he, rfl⟩
    rw [link_of_collect hh ha happ, (entryAddress_eq_ok_iff hh ha).mpr he,
      globals_eq_of_collect hh ha]
    rfl

theorem homesExist_of_link {l : Linker} {options : LinkSettings} {image : Image}
    (h : l.link options = .ok image) : HomesExist l.objects := by
  simp only [link, Except.bind_eq_ok_iff] at h
  obtain ⟨a, ha, -⟩ := h
  exact homesExist_of_collect ha

theorem length_bytes_of_link {l : Linker} {options : LinkSettings} (hh : HomesExist l.objects)
    {image : Image} (h : l.link options = .ok image) :
    image.bytes.length = (layout l.objects).bytes.length := by
  obtain ⟨-, happ, entry, -, rfl⟩ := (link_eq_ok_iff hh).mp h
  exact length_bytes_mapSections (fun _ _ => rfl)
    fun s hs => length_writeAll (sectionWrites_within happ hs)

/-! ## The conditions of success -/

/-- A relocation `r` of section `i` of object `k` has a code, and unless it is of type none, its
field lies in the section, its symbol has an address, and its value fits the field. -/
def Linkable (l : Linker) (base : UInt32) (k i : Nat) (s : Section UInt32) (r : Reloc UInt32) :
    Prop :=
  ∃ ty : RelocType, r.type = ty.code ∧ (ty ≠ .none →
    r.offset.toNat + ty.rule.size ≤ s.data.length ∧
    ∃ symbol p, l.address? base k r.symbol = some symbol ∧ l.place base k i = some p ∧
      ty.Fits (ty.target symbol (p.address + r.offset) r.addend))

theorem linkable_iff {l : Linker} {base : UInt32} {k i : Nat} {o : Object UInt32}
    {s : Section UInt32} (ho : l.objects[k]? = some o) (hs : o.sections[i]? = some s)
    (r : Reloc UInt32) :
    l.Linkable base k i s r ↔
      ∀ p, l.place base k i = some p → Applicable p (l.address? base k) r := by
  obtain ⟨p, hp, hlen⟩ := exists_placement base ho hs
  rw [← place] at hp
  simp only [Linkable, Applicable, hp, Option.some.injEq, forall_eq', exists_and_left, exists_eq_left',
    RelocType.ofCode?_eq_some_iff, hlen]

theorem allApplicable_iff {l : Linker} {base : UInt32} :
    l.AllApplicable base ↔ ∀ k o, l.objects[k]? = some o → ∀ i s, o.sections[i]? = some s →
      ∀ r ∈ s.relocs, l.Linkable base k i s r := by
  constructor
  · intro h k o ho i s hs r hr
    refine (linkable_iff ho hs r).mpr fun p hp => ?_
    exact h ⟨k, i, s⟩ (mem_allSections.mpr ⟨o, ho, hs⟩) p hp r hr
  · intro h s hs p hp r hr
    obtain ⟨o, ho, hos⟩ := mem_allSections.mp hs
    exact (linkable_iff ho hos r).mp (h _ o ho _ _ hos r hr) p hp

theorem entryPoint?_isSome_iff {l : Linker} (hh : HomesExist l.objects) (options : LinkSettings) :
    (∃ entry, l.entryPoint? options = some entry) ↔
      ∀ name, options.entry = some name → name ∈ l.definedNames := by
  unfold entryPoint?
  cases options.entry with
  | none => simp
  | some name => simp [mem_definedNames_iff options.base hh, Option.isSome_iff_exists]

/-! ## The image of a link that fails -/

/-- A link together with the bytes of its image, as far as they are written when it ends. -/
def linkInPlace (l : Linker) (options : LinkSettings) : Bytes × Except LinkError Image :=
  let layout := layout l.objects
  match collect (l.place options.base) 0 l.objects l.absolutes with
  | .error e => (layout.bytes, .error e)
  | .ok a =>
    match planObjects (l.place options.base) a 0 (l.objects.zip a.locals) with
    | .error e => (layout.bytes, .error e)
    | .ok patches =>
      match writePatches layout.bytes patches with
      | (bytes, some e) => (bytes, .error e)
      | (bytes, none) => (bytes, (entryAddress a.globals options).map fun entry =>
          ⟨options.base, entry, UInt32.ofNat layout.textSize, bytes, a.globals⟩)

theorem snd_linkInPlace (l : Linker) (options : LinkSettings) :
    (l.linkInPlace options).2 = l.link options := by
  rw [link_eq, linkInPlace]
  cases collect (l.place options.base) 0 l.objects l.absolutes with
  | error e => rfl
  | ok a =>
    simp only [bind, Except.bind]
    cases planObjects (l.place options.base) a 0 (l.objects.zip a.locals) with
    | error e => rfl
    | ok patches =>
      simp only [applyPatches]
      obtain ⟨bytes, e⟩ := writePatches (layout l.objects).bytes patches
      cases e <;> rfl

theorem fst_linkInPlace_of_planned {l : Linker} {options : LinkSettings} {a : Addresses}
    {patches : List Patch} (ha : collect (l.place options.base) 0 l.objects l.absolutes = .ok a)
    (hp : planObjects (l.place options.base) a 0 (l.objects.zip a.locals) = .ok patches) :
    (l.linkInPlace options).1 = (writePatches (layout l.objects).bytes patches).1 := by
  simp only [linkInPlace, ha, hp]
  obtain ⟨bytes, e⟩ := writePatches (layout l.objects).bytes patches
  cases e <;> rfl

/-- Nothing is written before every relocation is planned. -/
theorem fst_linkInPlace (l : Linker) (options : LinkSettings) :
    (l.linkInPlace options).1 = (layout l.objects).bytes ∨
      ∃ a patches, collect (l.place options.base) 0 l.objects l.absolutes = .ok a ∧
        planObjects (l.place options.base) a 0 (l.objects.zip a.locals) = .ok patches := by
  unfold linkInPlace
  cases ha : collect (l.place options.base) 0 l.objects l.absolutes with
  | error e => exact .inl rfl
  | ok a =>
    cases hp : planObjects (l.place options.base) a 0 (l.objects.zip a.locals) with
    | error e => exact .inl (by simp only [hp])
    | ok patches => exact .inr ⟨a, patches, rfl, hp⟩

/-- Once all relocations are planned, a link fails for want of its entry only. -/
theorem missing_entry_of_link {l : Linker} {options : LinkSettings} (hh : HomesExist l.objects)
    {a : Addresses} (ha : collect (l.place options.base) 0 l.objects l.absolutes = .ok a)
    (happ : l.AllApplicable options.base) {e : LinkError} (he : l.link options = .error e) :
    ∃ name, options.entry = some name ∧ name ∉ l.definedNames ∧ e = .undefinedSymbol name := by
  rw [link_of_collect hh ha happ] at he
  refine entryAddress_eq_error hh ha ?_
  cases hentry : entryAddress a.globals options with
  | error e' =>
    rw [hentry] at he
    exact congrArg _ (Except.error.inj he)
  | ok entry => simp [hentry, Except.map] at he

/-- A link succeeds exactly when no name is defined twice for all, every relocation can be applied
and the entry, if one is asked for, is defined. Once all relocations are planned no write fails, and
only the entry can still be missing. So a link that fails has written nothing, unless the names and
the relocations are as they should be and it is the entry that is not defined; then every patch has
been written. -/
theorem link_succeeds_iff (l : Linker) (options : LinkSettings) (hh : HomesExist l.objects) :
    ((∃ image, l.link options = .ok image) ↔
      l.definedNames.Nodup ∧
      (∀ k o, l.objects[k]? = some o → ∀ i s, o.sections[i]? = some s →
        ∀ r ∈ s.relocs, l.Linkable options.base k i s r) ∧
      ∀ name, options.entry = some name → name ∈ l.definedNames) ∧
    (∀ a patches, collect (l.place options.base) 0 l.objects l.absolutes = .ok a →
      planObjects (l.place options.base) a 0 (l.objects.zip a.locals) = .ok patches →
      (∃ bytes, writePatches (layout l.objects).bytes patches = (bytes, none) ∧
        (l.linkInPlace options).1 = bytes) ∧
      ∀ e, l.link options = .error e →
        ∃ name, options.entry = some name ∧ name ∉ l.definedNames ∧ e = .undefinedSymbol name) ∧
    (l.linkInPlace options).2 = l.link options ∧
    ∀ e, l.link options = .error e →
      (l.linkInPlace options).1 = (layout l.objects).bytes ∨
      l.definedNames.Nodup ∧
      (∀ k o, l.objects[k]? = some o → ∀ i s, o.sections[i]? = some s →
        ∀ r ∈ s.relocs, l.Linkable options.base k i s r) ∧
      ∃ name, options.entry = some name ∧ name ∉ l.definedNames ∧ e = .undefinedSymbol name := by
  refine ⟨?_, ?_, snd_linkInPlace l options, ?_⟩
  · simp only [link_eq_ok_iff hh, allApplicable_iff, ← entryPoint?_isSome_iff hh]
    constructor
    · rintro ⟨image, hn, happ, entry, he, -⟩
      exact ⟨hn, happ, entry, he⟩
    · rintro ⟨hn, happ, entry, he⟩
      exact ⟨_, hn, happ, entry, he, rfl⟩
  · intro a patches ha hp
    have hfst := fst_linkInPlace_of_planned ha hp
    obtain ⟨happ, rfl⟩ := (plan_of_collect hh ha).mp hp
    have hb := writePatches_eq_none_iff.mpr (applyPatches_planned happ)
    rw [hb] at hfst
    exact ⟨⟨_, hb, hfst⟩, fun e he => missing_entry_of_link hh ha happ he⟩
  · intro e he
    rcases fst_linkInPlace l options with hsame | ⟨a, patches, ha, hp⟩
    · exact .inl hsame
    · have happ := ((plan_of_collect hh ha).mp hp).1
      exact .inr ⟨(collect_isOk_iff options.base hh).mp ⟨a, ha⟩, allApplicable_iff.mp happ,
        missing_entry_of_link hh ha happ he⟩

/-- A call in one object to a function in another. -/
def callAcross : Linker :=
  ⟨[⟨[⟨".text", .text, [0, 0, 0, 12], [⟨0, "f", 6, 0⟩]⟩], []⟩,
    ⟨[⟨".text", .text, [0, 0, 0, 0], []⟩], [⟨"f", some 0, 0, true⟩]⟩], .empty⟩

theorem link_succeeds_iff_callAcross :
    HomesExist callAcross.objects ∧
    (∃ image, callAcross.link ⟨0x1000, some "f"⟩ = .ok image) ∧
    callAcross.Linkable 0x1000 0 0 ⟨".text", .text, [0, 0, 0, 12], [⟨0, "f", 6, 0⟩]⟩
      ⟨0, "f", 6, 0⟩ ∧
    ¬ ∃ image, callAcross.link ⟨0x1000, some "g"⟩ = .ok image := by
  have hh : HomesExist callAcross.objects := by simp [HomesExist, callAcross]
  have hok : ∃ image, callAcross.link ⟨0x1000, some "f"⟩ = .ok image := ⟨_, rfl⟩
  refine ⟨hh, hok, ?_, ?_⟩
  · have hall := ((link_succeeds_iff callAcross ⟨0x1000, some "f"⟩ hh).1.mp hok).2.1
    exact hall 0 _ rfl 0 _ rfl _ List.mem_cons_self
  · intro h
    have hentry := ((link_succeeds_iff callAcross ⟨0x1000, some "g"⟩ hh).1.mp h).2.2 "g" rfl
    exact absurd hentry (by decide)

/-- The call is written into the image, and then there is no entry of the name that is asked for. -/
theorem callAcross_fails_after_writing :
    HomesExist callAcross.objects ∧
    callAcross.link ⟨0x1000, some "g"⟩ = .error (.undefinedSymbol "g") ∧
    (layout callAcross.objects).bytes = [0, 0, 0, 12, 0, 0, 0, 0] ∧
    callAcross.linkInPlace ⟨0x1000, some "g"⟩ =
      ([1, 0, 0, 12, 0, 0, 0, 0], .error (.undefinedSymbol "g")) := by
  refine ⟨by simp [HomesExist, callAcross], rfl, rfl, rfl⟩

end Linker

end Dlx
