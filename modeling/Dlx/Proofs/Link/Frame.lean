import Dlx.Proofs.FieldBits
import Dlx.Proofs.Link.Sessions

/-!
# What a link puts into the image

An image is compared with the sections as they were given: laid one behind the other, each at the
next multiple of four, code first. The link changes bits of it only in the fields of relocations, and
its table of symbols holds the fixed addresses and the global symbols where they were laid.

Results:
* `laid_placeFrom`: sections are placed at the next multiple of four, with zeros in the gaps.
* `find?_symbols_iff`: what the names of an image stand for.
* `field_of_changed_bit`: a bit that a link changes is in the field of a relocation.
* `link_frames_image`: these together, for every link that succeeds.
-/
namespace Dlx

/-- How many bits, from the lowest on, make the field that a relocation code stands for. -/
def fieldWidth? (code : UInt32) : Option Nat :=
  match code.toNat with
  | 1 => some 32
  | 2 => some 64
  | 3 | 4 | 5 => some 16
  | 6 | 7 => some 26
  | _ => none

theorem fieldWidth?_code {ty : RelocType} (hty : ty ≠ .none) :
    fieldWidth? ty.code = some ty.rule.bitWidth := by
  cases ty with
  | none => exact absurd rfl hty
  | _ => rfl

namespace Linker

/-! ## Layout -/

/-- Sections are laid behind bytes, one behind the other. In front of each are the fewest zeros that
bring it to a multiple of four. -/
inductive Laid : Bytes → List Placed → Bytes → Prop
  | nil (bs : Bytes) : Laid bs [] bs
  | cons {bs out : Bytes} {p : Placed} {rest : List Placed} (gap : Nat)
      (haligned : (bs.length + gap) % 4 = 0) (hleast : ∀ g < gap, (bs.length + g) % 4 ≠ 0)
      (hoffset : p.offset = bs.length + gap)
      (hrest : Laid (bs ++ List.replicate gap 0 ++ p.sect.body.data) rest out) :
      Laid bs (p :: rest) out

theorem laid_placeFrom (bs : Bytes) (ss : List SectionAt) :
    Laid bs (placeFrom bs.length ss) (bs ++ bytesFrom bs.length (placeFrom bs.length ss)) := by
  induction ss generalizing bs with
  | nil =>
    rw [placeFrom, bytesFrom, List.append_nil]
    exact .nil bs
  | cons s rest ih =>
    have hlen : (bs ++ List.replicate (padding4 bs.length) 0 ++ s.body.data).length =
        bs.length + padding4 bs.length + s.body.data.length := by
      rw [List.length_append, List.length_append, List.length_replicate]
    have hnext := ih (bs ++ List.replicate (padding4 bs.length) 0 ++ s.body.data)
    rw [hlen] at hnext
    have hout : bs ++ bytesFrom bs.length (placeFrom bs.length (s :: rest)) =
        bs ++ List.replicate (padding4 bs.length) 0 ++ s.body.data ++
          bytesFrom (bs.length + padding4 bs.length + s.body.data.length)
            (placeFrom (bs.length + padding4 bs.length + s.body.data.length) rest) := by
      simp only [placeFrom, bytesFrom, Nat.add_sub_cancel_left, List.append_assoc]
    rw [hout]
    refine .cons (padding4 bs.length) ?_ ?_ rfl hnext
    · unfold padding4
      omega
    · intro g hg
      unfold padding4 at hg
      omega

/-! ## Symbols -/

theorem mem_globalDefinitions {place : Nat → Nat → Option Placement}
    {objects : List (Object UInt32)} {name : String} {address : UInt32} :
    (name, address) ∈ globalDefinitions place 0 objects ↔
      ∃ k o, objects[k]? = some o ∧ ∃ s ∈ o.symbols,
        s.isGlobal ∧ s.name = name ∧ symbolAddress? (place k) s = some address := by
  simp only [globalDefinitions, List.mem_flatMap, Prod.exists, List.mk_mem_zipIdx_iff_getElem?,
    mem_definitions]
  exact exists_comm

theorem find?_symbols_iff {l : Linker} {options : LinkSettings} {image : Image}
    (h : l.link options = .ok image) (name : String) (address : UInt32) :
    image.symbols.find? name = some address ↔
      l.absolutes.find? name = some address ∨
        (name, address) ∈ globalDefinitions (l.place options.base) 0 l.objects := by
  have hh := homesExist_of_link h
  have hnames := names_globalDefinitions (homesPlaced_of_homesExist hh options.base)
  obtain ⟨hnodup, -, entry, -, himage⟩ := (link_eq_ok_iff hh).mp h
  have hsymbols : image.symbols =
      l.absolutes.insertAll (globalDefinitions (l.place options.base) 0 l.objects) := by rw [himage]
  constructor
  · intro hfind
    rw [hsymbols, NameMap.find?_insertAll, Option.or_eq_some_iff] at hfind
    rcases hfind with hfind | ⟨-, hfind⟩
    · exact .inr (mem_of_lookup_reverse hfind)
    · exact .inl hfind
  · rintro (hfixed | hmem)
    · exact find?_symbols_of_link h hfixed
    · have hdistinct : ((globalDefinitions (l.place options.base) 0 l.objects).map (·.1)).Nodup := by
        rw [hnames]
        exact (List.nodup_append.mp hnodup).2.1
      rw [hsymbols, NameMap.find?_insertAll, lookup_reverse_of_mem hdistinct hmem]
      rfl

/-- A symbol of an object has its address where its section is placed. -/
theorem symbolAddress?_place {l : Linker} {base : UInt32} {k : Nat} {s : Symbol} {address : UInt32} :
    symbolAddress? (l.place base k) s = some address ↔
      ∃ i, s.home = some i ∧ ∃ p ∈ (layout l.objects).all, p.sect.key = (k, i) ∧
        base + UInt32.ofNat p.offset + s.value = address := by
  unfold symbolAddress? place
  rw [Option.bind_eq_some_iff]
  refine exists_congr fun i => and_congr_right fun _ => ?_
  rw [Option.map_eq_some_iff]
  simp only [placement?_eq_some_iff]
  constructor
  · rintro ⟨_, ⟨p, hp, hkey, rfl⟩, haddr⟩
    exact ⟨p, hp, hkey, haddr⟩
  · rintro ⟨p, hp, hkey, haddr⟩
    exact ⟨_, ⟨p, hp, hkey, rfl⟩, haddr⟩

/-! ## Changed bits -/

/-- A planned patch is in the field of its relocation. -/
theorem field_of_patchOf? {p : Placement} {lookup : String → Option UInt32} {r : Reloc UInt32}
    {patch : Patch} (h : patchOf? p lookup r = some patch) {n : Nat} (hn : patch.write.Touches n) :
    ∃ width, fieldWidth? r.type = some width ∧ 8 * (p.offset + r.offset.toNat) ≤ n ∧
      n < 8 * (p.offset + r.offset.toNat) + width := by
  obtain ⟨ty, hty, h⟩ := Option.bind_eq_some_iff.mp h
  split at h
  · cases h
  · next hne =>
    obtain ⟨symbol, -, h⟩ := Option.bind_eq_some_iff.mp h
    cases h
    obtain ⟨hlow, hhigh⟩ := RelocType.field_of_touches hn
    rw [RelocType.ofCode?_eq_some_iff.mp hty]
    exact ⟨ty.rule.bitWidth, fieldWidth?_code hne, hlow, hhigh⟩

theorem field_of_changed_bit {l : Linker} {options : LinkSettings} {image : Image}
    (h : l.link options = .ok image) {n : Nat}
    (hn : bitAt image.bytes n ≠ bitAt (layout l.objects).bytes n) :
    ∃ p ∈ (layout l.objects).all, ∃ r ∈ p.sect.body.relocs, ∃ width,
      fieldWidth? r.type = some width ∧ 8 * (p.offset + r.offset.toNat) ≤ n ∧
      n < 8 * (p.offset + r.offset.toNat) + width := by
  obtain ⟨-, happ, entry, -, rfl⟩ := (link_eq_ok_iff (homesExist_of_link h)).mp h
  -- the image is made by the planned patches, of which one touches the bit
  obtain ⟨hready, -⟩ := applyPatches_eq_ok_iff.mp (applyPatches_planned happ)
  rw [← writeAll_planned happ] at hn
  by_contra hnone
  refine hn (bitAt_writeAll (List.forall_mem_map.mpr fun patch hp => (hready patch hp).2.2)
    (List.forall_mem_map.mpr fun patch hp htouch => hnone ?_))
  obtain ⟨s, hs, hp⟩ := List.mem_flatMap.mp hp
  unfold sectionPatches at hp
  split at hp
  · next pl hpl =>
    obtain ⟨r, hr, hpatch⟩ := List.mem_filterMap.mp hp
    obtain ⟨q, hq, rfl⟩ := mem_layout.mpr hs
    rw [place, placement?_of_mem hq] at hpl
    cases hpl
    exact ⟨q, hq, r, hr, field_of_patchOf? hpatch htouch⟩
  · cases hp

/-! ## The image -/

/-- An image against the sections as they were given: `code` is what the sections with code make and
`whole` what all of them make. -/
structure Framed (l : Linker) (base : UInt32) (image : Image) (text data : List Placed)
    (code whole : Bytes) : Prop where
  text_sections : text.map (·.sect) = (allSections l.objects).filter (·.body.kind = .text)
  data_sections : data.map (·.sect) = (allSections l.objects).filter (·.body.kind = .data)
  text_laid : Laid [] text code
  data_laid : Laid code data whole
  textSize : image.textSize = UInt32.ofNat code.length
  /-- The table has the fixed addresses and the global symbols of the objects, and nothing else. -/
  symbols : ∀ name address, image.symbols.find? name = some address ↔
    l.absolutes.find? name = some address ∨
      ∃ k o, l.objects[k]? = some o ∧ ∃ s ∈ o.symbols, s.isGlobal ∧ s.name = name ∧
        ∃ i, s.home = some i ∧ ∃ p ∈ text ++ data, p.sect.key = (k, i) ∧
          base + UInt32.ofNat p.offset + s.value = address
  length : image.bytes.length = whole.length
  /-- What changed is in the fields of relocations. -/
  frame : ∀ n, bitAt image.bytes n ≠ bitAt whole n →
    ∃ p ∈ text ++ data, ∃ r ∈ p.sect.body.relocs, ∃ width, fieldWidth? r.type = some width ∧
      8 * (p.offset + r.offset.toNat) ≤ n ∧ n < 8 * (p.offset + r.offset.toNat) + width

/-- A link that succeeds lays out all sections, changes the fields of relocations only, and lists the
fixed and the global symbols. -/
theorem link_frames_image (l : Linker) (options : LinkSettings) (image : Image)
    (h : l.link options = .ok image) :
    ∃ text data code whole, l.Framed options.base image text data code whole := by
  have hh := homesExist_of_link h
  let lay := layout l.objects
  have hcode : (bytesFrom 0 lay.text).length = endFrom 0 lay.text := by
    have hlength := length_bytesFrom (inOrder_placeFrom 0 ((allSections l.objects).filter
      (·.body.kind = .text)))
    rwa [Nat.zero_add] at hlength
  have hwhole : lay.bytes =
      bytesFrom 0 lay.text ++ bytesFrom (bytesFrom 0 lay.text).length lay.data := by
    rw [hcode]
    exact bytesFrom_append 0 lay.text lay.data
  refine ⟨lay.text, lay.data, bytesFrom 0 lay.text, lay.bytes, ?_⟩
  constructor
  case text_sections => exact map_sect_placeFrom _ _
  case data_sections => exact map_sect_placeFrom _ _
  case text_laid => exact laid_placeFrom [] _
  case data_laid =>
    have hlaid := laid_placeFrom (bytesFrom 0 lay.text)
      ((allSections l.objects).filter (·.body.kind = .data))
    rw [hwhole]
    rw [hcode] at hlaid ⊢
    exact hlaid
  case textSize =>
    obtain ⟨-, -, entry, -, rfl⟩ := (link_eq_ok_iff hh).mp h
    rw [hcode]
    rfl
  case symbols =>
    intro name address
    rw [find?_symbols_iff h, mem_globalDefinitions]
    simp only [symbolAddress?_place]
    rfl
  case length => exact length_bytes_of_link hh h
  case frame => exact fun n hn => field_of_changed_bit h hn

/-- Sections of odd lengths in mixed order, a call between the objects and a fixed address. -/
def oddSections : Linker :=
  ⟨[⟨[⟨".text", .text, [0, 0, 0, 12], [⟨0, "f", 6, 0⟩]⟩, ⟨".data", .data, [1, 2, 3], []⟩], []⟩,
    ⟨[⟨".data", .data, [0, 0, 0, 0], [⟨0, "x", 1, 4⟩]⟩, ⟨".text", .text, [9], []⟩],
      [⟨"f", some 1, 0, true⟩, ⟨"here", some 0, 0, false⟩]⟩], .ofList [("x", 16)]⟩

theorem link_frames_image_oddSections :
    ∃ image, oddSections.link ⟨0x1000, some "f"⟩ = .ok image ∧
      image.bytes = [1, 0, 0, 12, 9, 0, 0, 0, 1, 2, 3, 0, 20, 0, 0, 0] ∧
      image.textSize = 5 ∧ image.symbols.entries = [("f", 0x1004), ("x", 16)] ∧
      ∃ text data code whole, oddSections.Framed 0x1000 image text data code whole := by
  have hbuilt : ∃ image, oddSections.link ⟨0x1000, some "f"⟩ = .ok image ∧
      image.bytes = [1, 0, 0, 12, 9, 0, 0, 0, 1, 2, 3, 0, 20, 0, 0, 0] ∧
      image.textSize = 5 ∧ image.symbols.entries = [("f", 0x1004), ("x", 16)] :=
    ⟨_, rfl, rfl, rfl, rfl⟩
  obtain ⟨image, hlink, hbytes, hsize, hsymbols⟩ := hbuilt
  exact ⟨image, hlink, hbytes, hsize, hsymbols,
    link_frames_image oddSections ⟨0x1000, some "f"⟩ image hlink⟩

end Linker

end Dlx
