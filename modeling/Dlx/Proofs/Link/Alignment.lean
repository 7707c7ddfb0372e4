import Dlx.Proofs.Elf.Loading
import Dlx.Proofs.Link.Success

/-!
# Alignment of the section headers

The section headers of an executable declare an alignment of four for code and for data. The linker
places every section at a multiple of four, but the code ends where its last section ends, and the
header of the data starts there: in front of the zeros that bring the first data section to its
place.

Results:
* `textSize_mod`: up to a multiple of four, the code is as long as its last section.
* `Elf.headers_aligned_iff`: when the headers of an image are aligned as they declare.
* `link_headers_aligned_iff`: for a link this depends on the last code section, and so does whether
  the header of the data has the address of the first data section.
* `unpaddedCode_data_misplaced`: one byte of code is enough to go wrong.
-/
namespace Dlx

theorem padding4_congr {m n : Nat} (h : m % 4 = n % 4) : padding4 m = padding4 n := by
  rw [padding4, padding4, h]

theorem padding4_eq_zero_iff {n : Nat} : padding4 n = 0 ↔ n % 4 = 0 := by
  unfold padding4
  omega

namespace Elf

theorem headers_aligned_iff (i : Image) :
    (∀ h ∈ executableSections i (imageOffset i), h.align ∣ h.address) ↔
      4 ∣ i.base.toNat ∧
        (i.textSize.toNat < i.bytes.length → 4 ∣ (i.base + i.textSize).toNat) := by
  rw [executableSections_eq]
  constructor
  · intro h
    refine ⟨h _ (mem_imageHeaders.mpr (.inr (.inl rfl))), fun hdata => ?_⟩
    exact h _ (mem_imageHeaders.mpr
      (.inr (.inr (.inl (dataHeader?_eq_some_iff.mpr ⟨hdata, rfl⟩)))))
  · rintro ⟨hbase, hdata⟩ h hmem
    rcases mem_imageHeaders.mp hmem with rfl | rfl | hd | rfl
    · exact Nat.dvd_zero _
    · exact hbase
    · obtain ⟨hlt, rfl⟩ := dataHeader?_eq_some_iff.mp hd
      exact hdata hlt
    · exact Nat.dvd_zero _

end Elf

namespace Linker

/-! ## Where code ends and data starts -/

/-- The sections with data, in the order in which they are placed. -/
def dataSections (l : Linker) : List SectionAt :=
  (allSections l.objects).filter (·.body.kind = .data)

/-- The length of the last section with code. -/
def lastCodeLength (l : Linker) : Nat :=
  ((((allSections l.objects).filter (·.body.kind = .text)).getLast?).map
    (·.body.data.length)).getD 0

/-- Every section starts at a multiple of four, so only the last one counts. -/
theorem endFrom_placeFrom_mod (offset : Nat) (ss : List SectionAt) :
    endFrom offset (placeFrom offset ss) % 4 =
      ((ss.getLast?.map (·.body.data.length)).getD offset) % 4 := by
  induction ss generalizing offset with
  | nil => rfl
  | cons s rest ih =>
    rw [placeFrom, endFrom, ih, List.getLast?_cons]
    cases rest.getLast? with
    | none =>
      simp only [Option.map_none, Option.getD_none, Option.map_some, Option.getD_some, padding4]
      omega
    | some t => rfl

theorem textSize_mod (l : Linker) : (layout l.objects).textSize % 4 = l.lastCodeLength % 4 :=
  endFrom_placeFrom_mod 0 _

theorem length_layout_bytes (objects : List (Object UInt32)) :
    (layout objects).bytes.length = endFrom (layout objects).textSize (layout objects).data := by
  have h := length_bytesFrom (inOrder_append.mp (layout_inOrder objects)).1
  have h' := length_bytesFrom (inOrder_append.mp (layout_inOrder objects)).2
  rw [ImageLayout.bytes, ImageLayout.all, bytesFrom_append, List.length_append,
    ImageLayout.textSize]
  omega

theorem textSize_le_length (objects : List (Object UInt32)) :
    (layout objects).textSize ≤ (layout objects).bytes.length := by
  rw [length_layout_bytes]
  exact le_endFrom (inOrder_append.mp (layout_inOrder objects)).2

theorem data_layout (l : Linker) :
    (layout l.objects).data = placeFrom (layout l.objects).textSize l.dataSections := rfl

theorem length_bytes_of_no_data {l : Linker} (h : l.dataSections = []) :
    (layout l.objects).bytes.length = (layout l.objects).textSize := by
  rw [length_layout_bytes, data_layout, h]
  rfl

/-- The first section with data is behind the code at the next multiple of four. -/
theorem first_data_mem {l : Linker} {s : SectionAt} {rest : List SectionAt}
    (h : l.dataSections = s :: rest) :
    ⟨s, (layout l.objects).textSize + padding4 (layout l.objects).textSize⟩ ∈
      (layout l.objects).all := by
  refine List.mem_append_right _ ?_
  rw [data_layout, h]
  exact List.mem_cons_self

/-- A section with data that is not empty ends behind the start of the first one. -/
theorem start_lt_length {l : Linker} {s : SectionAt} (hs : s ∈ l.dataSections)
    (hne : s.body.data ≠ []) :
    (layout l.objects).textSize + padding4 (layout l.objects).textSize <
      (layout l.objects).bytes.length := by
  have hpos := List.length_pos_iff.mpr hne
  obtain ⟨p, hp, rfl⟩ : ∃ p ∈ (layout l.objects).data, p.sect = s := by
    rw [data_layout, ← List.mem_map, map_sect_placeFrom]
    exact hs
  have hstop := stop_le_length (List.mem_append_right _ hp)
  -- the sections with data are in order from the start of the first on
  have hstart : (layout l.objects).textSize + padding4 (layout l.objects).textSize ≤ p.offset := by
    rw [data_layout] at hp
    cases hl : l.dataSections with
    | nil => rw [hl] at hs; cases hs
    | cons first rest =>
      rw [hl] at hp
      have horder : InOrder ((layout l.objects).textSize + padding4 (layout l.objects).textSize)
          (placeFrom (layout l.objects).textSize (first :: rest)) :=
        ⟨Nat.le_refl _, inOrder_placeFrom _ _⟩
      exact horder.pairwise.2 p hp
  unfold Placed.stop at hstop
  omega

/-! ## Links -/

section Linked

variable {l : Linker} {options : LinkSettings} {image : Image}

theorem base_of_link (h : l.link options = .ok image) : image.base = options.base := by
  obtain ⟨-, -, entry, -, rfl⟩ := (link_eq_ok_iff (homesExist_of_link h)).mp h
  rfl

theorem textSize_of_link (h : l.link options = .ok image) :
    image.textSize.toNat = (layout l.objects).textSize % 0x100000000 := by
  obtain ⟨-, -, entry, -, rfl⟩ := (link_eq_ok_iff (homesExist_of_link h)).mp h
  exact UInt32.toNat_ofNat'

/-- The header of the data is behind the code, by less than four bytes in front of the first data
section. -/
theorem dataHeader_of_link (h : l.link options = .ok image)
    (hwrap : options.base.toNat + image.bytes.length ≤ 0x100000000)
    {s : SectionAt} (hs : s ∈ l.dataSections) (hne : s.body.data ≠ []) :
    ∃ d first rest p, Elf.dataHeader? image = some d ∧ l.dataSections = first :: rest ∧
      l.place options.base first.object first.index = some p ∧
      p.address.toNat = d.address + padding4 l.lastCodeLength := by
  have hlength := length_bytes_of_link (homesExist_of_link h) h
  have hstart := start_lt_length hs hne
  have htext := textSize_of_link h
  obtain ⟨first, rest, hfirst⟩ := List.exists_cons_of_ne_nil (List.ne_nil_of_mem hs)
  have hplace := placement?_of_mem (first_data_mem hfirst) options.base
  refine ⟨_, first, rest, _, Elf.dataHeader?_eq_some_iff.mpr ⟨by omega, rfl⟩, hfirst, hplace, ?_⟩
  rw [padding4_congr l.textSize_mod.symm, base_of_link h]
  simp only [Placed.placement, UInt32.toNat_add, UInt32.toNat_ofNat', htext]
  omega

theorem link_aligned_iff (h : l.link options = .ok image) (hbase : options.base.toNat % 4 = 0)
    (hwrap : options.base.toNat + image.bytes.length ≤ 0x100000000) :
    (∀ hd ∈ Elf.executableSections image (Elf.imageOffset image), hd.align ∣ hd.address) ↔
      l.dataSections = [] ∨ l.lastCodeLength % 4 = 0 := by
  have hlength := length_bytes_of_link (homesExist_of_link h) h
  have hle := textSize_le_length l.objects
  have htext := textSize_of_link h
  have haddress : (image.base + image.textSize).toNat % 4 = l.lastCodeLength % 4 := by
    rw [base_of_link h, UInt32.toNat_add, htext, ← l.textSize_mod]
    omega
  rw [Elf.headers_aligned_iff, Nat.dvd_iff_mod_eq_zero, Nat.dvd_iff_mod_eq_zero, haddress,
    base_of_link h]
  constructor
  · rintro ⟨-, hdata⟩
    refine or_iff_not_imp_left.mpr fun hne => Classical.byContradiction fun hmod => ?_
    -- the zeros in front of the first data section already follow the code
    obtain ⟨first, rest, hfirst⟩ := List.exists_cons_of_ne_nil hne
    have hstop := stop_le_length (first_data_mem hfirst)
    have hpad : padding4 (layout l.objects).textSize ≠ 0 := by
      rw [Ne, padding4_eq_zero_iff, l.textSize_mod]
      exact hmod
    dsimp only [Placed.stop] at hstop
    exact hmod (hdata (by omega))
  · intro hcases
    refine ⟨hbase, fun hlt => ?_⟩
    rcases hcases with hnone | hmod
    · have hall := length_bytes_of_no_data hnone
      have hmod := l.textSize_mod
      omega
    · exact hmod

end Linked

/-- The section headers of a linked executable are aligned as they declare exactly if there is no
data section or the last code section is a multiple of four long. The data header, if some data
section is not empty, is in front of the first data section by the zeros that follow the code. -/
theorem link_headers_aligned_iff {l : Linker} {options : LinkSettings} {image : Image}
    (h : l.link options = .ok image) (hbase : options.base.toNat % 4 = 0)
    (hwrap : options.base.toNat + image.bytes.length < 0x100000000) :
    ((∀ hd ∈ Elf.executableSections image (Elf.imageOffset image), hd.align ∣ hd.address) ↔
      l.dataSections = [] ∨ l.lastCodeLength % 4 = 0) ∧
    ((∃ s ∈ l.dataSections, s.body.data ≠ []) →
      ∃ d ∈ Elf.executableSections image (Elf.imageOffset image),
        Elf.nameAt Elf.executableNames d.name = .ok ".data" ∧
        ∃ first rest p, l.dataSections = first :: rest ∧
          l.place options.base first.object first.index = some p ∧
          p.address.toNat = d.address + padding4 l.lastCodeLength ∧
          (d.address = p.address.toNat ↔ l.lastCodeLength % 4 = 0)) := by
  refine ⟨link_aligned_iff h hbase hwrap.le, ?_⟩
  rintro ⟨s, hs, hne⟩
  obtain ⟨d, first, rest, p, hd, hfirst, hplace, haddress⟩ := dataHeader_of_link h hwrap.le hs hne
  have hname : d.name = 7 := by
    obtain ⟨-, rfl⟩ := Elf.dataHeader?_eq_some_iff.mp hd
    rfl
  refine ⟨d, ?_, ?_, first, rest, p, hfirst, hplace, haddress, ?_⟩
  · rw [Elf.executableSections_eq]
    exact Elf.mem_imageHeaders.mpr (.inr (.inr (.inl hd)))
  · rw [hname]
    exact Elf.nameAt_executableNames.2.1
  · rw [haddress, ← padding4_eq_zero_iff]
    omega

/-- One byte of code and then a word of it, in front of a byte of data. -/
def paddedCode : Linker :=
  ⟨[⟨[⟨".text", .text, [1], []⟩, ⟨".data", .data, [3], []⟩], []⟩,
    ⟨[⟨".text", .text, [2, 0, 0, 0], []⟩], []⟩], .empty⟩

theorem link_headers_aligned_iff_paddedCode :
    ∃ image, paddedCode.link ⟨0x1000, none⟩ = .ok image ∧ (0x1000 : UInt32).toNat % 4 = 0 ∧
      (0x1000 : UInt32).toNat + image.bytes.length < 0x100000000 ∧
      (∀ hd ∈ Elf.executableSections image (Elf.imageOffset image), hd.align ∣ hd.address) ∧
      ∃ d ∈ Elf.executableSections image (Elf.imageOffset image),
        Elf.nameAt Elf.executableNames d.name = .ok ".data" ∧
        paddedCode.place 0x1000 0 1 = some ⟨0x1008, 8, 1⟩ ∧ d.address = 0x1008 := by
  have hlink : paddedCode.link ⟨0x1000, none⟩ =
      .ok ⟨0x1000, 0x1000, 8, [1, 0, 0, 0, 2, 0, 0, 0, 3], .empty⟩ := rfl
  have hbase : (0x1000 : UInt32).toNat % 4 = 0 := by decide
  have hwrap : (0x1000 : UInt32).toNat + [1, 0, 0, 0, 2, 0, 0, 0, 3].length < 0x100000000 := by
    decide
  have hlast : paddedCode.lastCodeLength % 4 = 0 := rfl
  have hplaced : paddedCode.place 0x1000 0 1 = some ⟨0x1008, 8, 1⟩ := rfl
  obtain ⟨haligned, hdata⟩ := link_headers_aligned_iff hlink hbase hwrap
  obtain ⟨d, hd, hname, first, rest, p, hfirst, hplace, -, haddress⟩ :=
    hdata ⟨⟨0, 1, ⟨".data", .data, [3], []⟩⟩, List.mem_cons_self, List.cons_ne_nil _ _⟩
  obtain ⟨rfl, -⟩ := List.cons.inj hfirst
  obtain rfl := Option.some.inj (hplaced.symm.trans hplace)
  exact ⟨_, hlink, hbase, hwrap, haligned.mpr (.inr hlast), d, hd, hname, hplaced,
    haddress.mpr hlast⟩

/-- A byte of code in front of a word of data. -/
def unpaddedCode : Linker :=
  ⟨[⟨[⟨".text", .text, [1], []⟩, ⟨".data", .data, [2, 0, 0, 0], []⟩], []⟩], .empty⟩

/-- The data is placed at four. Its header has the address one and declares an alignment of four. -/
theorem unpaddedCode_data_misplaced :
    ∃ image, unpaddedCode.link ⟨0, none⟩ = .ok image ∧
      unpaddedCode.place 0 0 1 = some ⟨4, 4, 4⟩ ∧
      ∃ d ∈ Elf.executableSections image (Elf.imageOffset image),
        Elf.nameAt Elf.executableNames d.name = .ok ".data" ∧ d.address = 1 ∧ d.align = 4 := by
  refine ⟨⟨0, 0, 1, [1, 0, 0, 0, 2, 0, 0, 0], .empty⟩, rfl, rfl,
    ⟨7, Elf.sectionProgram, Elf.flagAlloc + Elf.flagWrite, 1, 245, 7, 0, 0, 4, 0⟩, ?_,
    Elf.nameAt_executableNames.2.1, rfl, rfl⟩
  rw [Elf.executableSections_eq]
  exact Elf.mem_imageHeaders.mpr (.inr (.inr (.inl rfl)))

end Linker

end Dlx
