import Dlx.Proofs.Elf.Sections
import Dlx.Proofs.Encoding
import Dlx.Proofs.Link.Success

/-!
# Relocations in the image

The linker leaves at the place of a relocation what its value makes of the bytes that stood there.
So an instruction whose fixup was left to the linker is found in the image with its field filled in,
however the object got to the linker: as it was, or through a file.

Results:
* `Linker.slice?_linked`: the bytes of a section in the image.
* `Linker.slice?_reloc`: the bytes at the place of one relocation.
* `conveys_withCodes`, `conveys_readObject`: what an object keeps on its way to the linker.
* `Assembly.inst_closed`, `Linker.slice?_inst`: an instruction that refers to a symbol, in its finished
  section and in the image.
-/
namespace Dlx

/-! ## One relocation -/

theorem offset_size_of_relocWrite? {address : UInt32} {lookup : String → Option UInt32}
    {r : Reloc UInt32} {w : Write} (h : relocWrite? address lookup r = some w) :
    ∃ ty, RelocType.ofCode? r.type = some ty ∧ w.offset = r.offset.toNat ∧
      w.size = ty.rule.size := by
  unfold relocWrite? at h
  obtain ⟨ty, hty, h⟩ := Option.bind_eq_some_iff.mp h
  split at h
  · cases h
  · obtain ⟨symbol, -, h⟩ := Option.bind_eq_some_iff.mp h
    cases h
    exact ⟨ty, hty, rfl, rfl⟩

namespace Linker

section

variable {l : Linker} {options : LinkSettings} {image : Image} (h : l.link options = .ok image)
  {k i : Nat} {o : Object UInt32} {s : Section UInt32} (ho : l.objects[k]? = some o)
  (hs : o.sections[i]? = some s)

include h ho hs

theorem slice?_linked :
    ∃ p, l.place options.base k i = some p ∧ p.length = s.data.length ∧
      (∀ r ∈ s.relocs, Applicable p (l.address? options.base k) r) ∧
      slice? image.bytes p.offset s.data.length =
        some (writeAll s.data
          (s.relocs.filterMap (relocWrite? p.address (l.address? options.base k)))) := by
  obtain ⟨-, happ, entry, -, rfl⟩ := (link_eq_ok_iff (homesExist_of_link h)).mp h
  have hmem : ⟨k, i, s⟩ ∈ allSections l.objects := mem_allSections.mpr ⟨o, ho, hs⟩
  obtain ⟨q, hq, hqs⟩ := exists_placed ho hs
  have hplace : l.place options.base k i = some (q.placement options.base) := by
    have := placement?_of_mem hq options.base
    rwa [hqs] at this
  have hlen : (q.placement options.base).length = s.data.length := by
    rw [Placed.placement, hqs]
  refine ⟨_, hplace, hlen, happ _ hmem _ hplace, ?_⟩
  -- In the relocated objects the section has its place, with other data of the same length.
  have hwrites : l.sectionWrites options.base ⟨k, i, s⟩ = s.relocs.filterMap
      (relocWrite? (q.placement options.base).address (l.address? options.base k)) := by
    simp only [sectionWrites, hplace]
  let filled : SectionAt → Section UInt32 := fun t =>
    { t.body with data := writeAll t.body.data (l.sectionWrites options.base t) }
  have hkeep : ∀ t ∈ allSections l.objects, (filled t).data.length = t.body.data.length :=
    fun t ht => length_writeAll (sectionWrites_within happ ht)
  have hall : q.map filled ∈ (layout (l.relocated options.base)).all := by
    have hlayout := @layout_mapSections filled l.objects (fun _ _ => rfl) hkeep
    rw [relocated, hlayout, ImageLayout.all, ← List.map_append]
    exact List.mem_map_of_mem hq
  have hdata : (q.map filled).sect.body.data = writeAll s.data (s.relocs.filterMap
      (relocWrite? (q.placement options.base).address (l.address? options.base k))) := by
    simp only [Placed.map, SectionAt.map, hqs, filled, hwrites]
  have hslice := slice?_layout_bytes hall
  rw [hdata, length_writeAll (hwrites ▸ sectionWrites_within happ hmem)] at hslice
  exact hslice

/-- The place of a relocation, in a section with relocations in order that do not overlap. -/
theorem slice?_reloc
    (hordered : s.relocs.Pairwise fun r r' => ∀ ty, RelocType.ofCode? r.type = some ty →
      r.offset.toNat + ty.rule.size ≤ r'.offset.toNat)
    {r : Reloc UInt32} (hr : r ∈ s.relocs) {ty : RelocType}
    (hty : RelocType.ofCode? r.type = some ty) (hne : ty ≠ .none) :
    ∃ p symbol, l.place options.base k i = some p ∧
      l.address? options.base k r.symbol = some symbol ∧
      slice? image.bytes (p.offset + r.offset.toNat) ty.rule.size =
        some ((ty.write r.offset.toNat
          (relocValue ty symbol (p.address + r.offset) r.addend)).new
            ((s.data.drop r.offset.toNat).take ty.rule.size)) := by
  obtain ⟨p, hp, hlen, happ, hslice⟩ := slice?_linked h ho hs
  obtain ⟨ty', hty', hok⟩ := happ r hr
  obtain rfl : ty = ty' := Option.some.inj (hty.symm.trans hty')
  obtain ⟨hin, symbol, hsymbol, -⟩ := hok hne
  have hwrite : relocWrite? p.address (l.address? options.base k) r =
      some (ty.write r.offset.toNat (relocValue ty symbol (p.address + r.offset) r.addend)) := by
    simp only [relocWrite?, hty, Option.bind_eq_bind, Option.bind_some, if_neg hne, hsymbol]
  have hwithin : ∀ w ∈ s.relocs.filterMap (relocWrite? p.address (l.address? options.base k)),
      w.Within s.data.length := by
    intro w hw
    obtain ⟨q, hq, hw⟩ := List.mem_filterMap.mp hw
    exact hlen ▸ (happ q hq).within hw
  have hapart : (s.relocs.filterMap
      (relocWrite? p.address (l.address? options.base k))).Pairwise Write.Apart := by
    refine List.Pairwise.filterMap _ ?_ hordered
    intro q q' hqq w hw w' hw'
    obtain ⟨ty, hty, hoffset, hsize⟩ := offset_size_of_relocWrite? hw
    obtain ⟨_, -, hoffset', -⟩ := offset_size_of_relocWrite? hw'
    left
    rw [hoffset, hsize, hoffset']
    exact hqq ty hty
  refine ⟨p, symbol, hp, hsymbol, ?_⟩
  rw [slice?_of_slice? hslice (hlen ▸ hin)]
  exact slice?_writeAll (List.mem_filterMap.mpr ⟨r, hr, hwrite⟩) hwithin hapart

end

end Linker

/-! ## On the way to the linker -/

/-- What a relocation keeps on the way to the linker: its place, its type and the low word of its
addend, and its symbol, if that is `symbol`. -/
structure Reloc.Kept (symbol : String) (r : Reloc RelocType) (r' : Reloc UInt32) : Prop where
  offset : r'.offset = r.offset
  type : r'.type = r.type.code
  symbol : r.symbol = symbol → r'.symbol = symbol
  addend : r'.addend.toUInt64.toUInt32 = r.addend.toUInt64.toUInt32

/-- The sections of an object come to the linker with their data and their relocations, and those
that refer to `symbol` still do. -/
def Object.Conveys (symbol : String) (o : Object RelocType) (o' : Object UInt32) : Prop :=
  ∃ f : Section RelocType → Section UInt32, o'.sections = o.sections.map f ∧
    ∀ s, (f s).data = s.data ∧
      ∃ g, (f s).relocs = s.relocs.map g ∧ ∀ r, Reloc.Kept symbol r (g r)

theorem conveys_withCodes (symbol : String) (o : Object RelocType) : o.Conveys symbol o.withCodes :=
  ⟨Section.withCodes, rfl, fun _ => ⟨rfl, Reloc.withCode, rfl, fun _ => ⟨rfl, rfl, id, rfl⟩⟩⟩

theorem conveys_readObject {symbol : String} (hsymbol : Elf.Storable symbol) {a : Assembly}
    (ha : a.Sound) (hl : Elf.WithinLimits a.object) {o' : Object UInt32}
    (h : Elf.readObject (Elf.writeObject a.object) = .ok o') : a.object.Conveys symbol o' := by
  obtain ⟨symbols, hread⟩ := Elf.readObject_of_withinLimits ha.homes_object a.listed_object hl
  obtain rfl := Except.ok.inj (hread.symm.trans h)
  refine ⟨Elf.filed ∘ Section.narrowed, ?_, fun s => ⟨rfl, Elf.filedReloc ∘ Reloc.narrowed, ?_, ?_⟩⟩
  · rw [sections_narrowed, List.map_map]
  · exact List.map_map
  · intro r
    refine ⟨rfl, rfl, ?_, toUInt32_narrow r.addend⟩
    intro hr
    exact (congrArg Elf.untilNul hr).trans (Elf.untilNul_eq_self hsymbol)

/-- A relocated section as the linker has it. -/
theorem Object.Conveys.getElem? {symbol : String} {o : Object RelocType} {o' : Object UInt32}
    (h : o.Conveys symbol o') {i : Nat} {s : Section RelocType} (hs : o.sections[i]? = some s)
    (hordered : s.relocs.Pairwise fun r r' =>
      r.offset.toNat + r.type.rule.size ≤ r'.offset.toNat) :
    ∃ s', o'.sections[i]? = some s' ∧ s'.data = s.data ∧
      (s'.relocs.Pairwise fun r r' => ∀ ty, RelocType.ofCode? r.type = some ty →
        r.offset.toNat + ty.rule.size ≤ r'.offset.toNat) ∧
      ∀ r ∈ s.relocs, ∃ r' ∈ s'.relocs, Reloc.Kept symbol r r' := by
  obtain ⟨f, hf, hsections⟩ := h
  obtain ⟨hdata, g, hg, hkept⟩ := hsections s
  refine ⟨f s, by rw [hf, List.getElem?_map, hs, Option.map_some], hdata, ?_, ?_⟩
  · rw [hg, List.pairwise_map]
    refine hordered.imp ?_
    intro r r' hrr ty hty
    rw [(hkept r).type, RelocType.ofCode?_code] at hty
    obtain rfl := Option.some.inj hty
    rw [(hkept r).offset, (hkept r').offset]
    exact hrr
  · intro r hr
    exact ⟨g r, hg ▸ List.mem_map_of_mem hr, hkept r⟩

/-! ## One instruction -/

/-- An instruction that refers to a symbol, and not by a distance, stands in its finished section as
it was encoded, with a relocation. -/
theorem Assembly.inst_closed {a b c : Assembly} (ha : a.Sound) {i : Inst} {word : UInt32}
    {ty : RelocType} {symbol : String} {addend : Int64}
    (hencodes : i.EncodesReference word ty symbol addend) (habs : ty.rule.pcRelative = false)
    (hinst : a.inst i = .ok b) (hreach : b.Reaches c)
    (hsize : ∀ s ∈ c.object.sections, s.data.length < 0x100000000) :
    ∃ s, c.object.sections[a.current]? = some s ∧
      (s.relocs.Pairwise fun r r' => r.offset.toNat + r.type.rule.size ≤ r'.offset.toNat) ∧
      ⟨a.offset, symbol, ty, addend⟩ ∈ s.relocs ∧
      slice? s.data a.offset.toNat 4 = some (wordBytes word) := by
  obtain ⟨f, m, hi, hty, hf⟩ := hencodes
  obtain ⟨sec, t, rest, hsec, ht, hdata, hfix⟩ := inst_stays ha hi hinst hreach
  have htidy := (hreach.sound ((inst_step hinst).sound ha)).tidy t (List.mem_of_getElem? ht)
  have hclosed : c.object.sections[a.current]? = some (c.closed a.current t) := by
    simp only [object, List.getElem?_mapIdx, ht, Option.map_some]
  have hlen : t.data.length < 0x100000000 := by
    have := hsize _ (List.mem_of_getElem? hclosed)
    rwa [length_closed htidy] at this
  -- In the section the fixup has the offset that the unit had.
  obtain ⟨hzero, hsize4⟩ := (Inst.encode_fixups hi).2 f List.mem_cons_self
  have hmem : ⟨a.offset, f.value, f.kind⟩ ∈ t.fixups := by
    have := hfix f List.mem_cons_self
    rwa [hzero, UInt32.zero_add] at this
  have hdeferred : c.deferredReloc? a.current ⟨a.offset, f.value, f.kind⟩ =
      some ⟨a.offset, symbol, ty, addend⟩ := by
    have hpc : (f.kind.isPcRelative && c.localPc) = false := by
      rw [← FixupKind.pcRelative_rule hty, habs, Bool.false_and]
    unfold deferredReloc?
    rw [@settle_of_refers? _ _ _ ⟨a.offset, f.value, f.kind⟩ _ _ _ hf hpc]
    simp only [hty, Option.map_some]
  have hopen : slice? t.data a.offset.toNat 4 = some (wordBytes word) := by
    have hlong : sec.data.length + 4 + rest.length = t.data.length := by
      rw [← hdata]
      simp [wordBytes, length_leBytes, Nat.add_assoc]
    have hoff : a.offset.toNat = sec.data.length := by
      rw [offset_eq hsec, UInt32.toNat_ofNat']
      omega
    refine slice?_eq_some_iff.mpr ⟨by omega, ?_⟩
    rw [hoff, ← hdata, List.append_assoc, List.drop_left]
    exact List.take_left' (length_leBytes 4 _)
  have hslice := slice?_closed htidy hlen hmem hdeferred
  simp only [hsize4] at hslice
  exact ⟨_, hclosed, relocs_closed_ordered htidy hlen,
    List.mem_filterMap.mpr ⟨_, hmem, hdeferred⟩, hslice.trans hopen⟩

/-- In the image the instruction has its field filled in. -/
theorem Linker.slice?_inst {l : Linker} {options : LinkSettings} {image : Image}
    (hlink : l.link options = .ok image) {k : Nat} {o : Object UInt32}
    (ho : l.objects[k]? = some o) {a b c : Assembly} (ha : a.Sound) {i : Inst} {word : UInt32}
    {ty : RelocType} {symbol : String} {addend : Int64}
    (hencodes : i.EncodesReference word ty symbol addend) (habs : ty.rule.pcRelative = false)
    (hword : ty ∉ [.none, .abs32, .abs64]) (hinst : a.inst i = .ok b) (hreach : b.Reaches c)
    (hsize : ∀ s ∈ c.object.sections, s.data.length < 0x100000000)
    (hconveys : c.object.Conveys symbol o) :
    ∃ p s addend', l.place options.base k a.current = some p ∧
      l.address? options.base k symbol = some s ∧
      addend'.toUInt64.toUInt32 = addend.toUInt64.toUInt32 ∧
      slice? image.bytes (p.offset + a.offset.toNat) 4 =
        some (wordBytes (ty.rule.mergeWord word
          (ty.fieldBits (relocValue ty s (p.address + a.offset) addend')).toUInt32)) := by
  obtain ⟨sec, hsec, hordered, hmem, hold⟩ :=
    Assembly.inst_closed ha hencodes habs hinst hreach hsize
  obtain ⟨sec', hsec', hdata, hordered', hall⟩ := hconveys.getElem? hsec hordered
  obtain ⟨r, hr, hkept⟩ := hall _ hmem
  have hcode : RelocType.ofCode? r.type = some ty := by
    rw [hkept.type]
    exact RelocType.ofCode?_code ty
  obtain ⟨p, s, hp, hsym, hslice⟩ := slice?_reloc hlink ho hsec' hordered' hr hcode
    (fun h => hword (h ▸ List.mem_cons_self))
  rw [hkept.symbol rfl] at hsym
  refine ⟨p, s, r.addend, hp, hsym, hkept.addend, ?_⟩
  have hsize4 : ty.rule.size = 4 := by
    obtain ⟨f, -, hi, hty, -⟩ := hencodes
    rw [FixupKind.size_of_relocType? hty]
    exact ((Inst.encode_fixups hi).2 f List.mem_cons_self).2
  have hoffset : r.offset = a.offset := hkept.offset
  rw [hsize4, hoffset, hdata, (slice?_eq_some_iff.mp hold).2,
    RelocType.new_write_wordBytes hword] at hslice
  exact hslice

end Dlx
