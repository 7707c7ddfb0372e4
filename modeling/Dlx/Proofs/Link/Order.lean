import Dlx.Proofs.Link.Relocations

/-!
# The order of relocations

Planning stops at the first relocation that cannot be applied, and a patch keeps bits of the bytes
that it finds. Still the order of the relocations plays no part: whether one can be applied does not
depend on the others, and patches of different bytes do not see each other.

Results:
* `Reloc.apart_iff`: ranges of bytes are disjoint if the one ends before the other starts.
* `relocateImage_eq_ok_iff`: an image is relocated if each relocation can be applied to it, and the
  bytes are those of the writes in a row.
* `relocateImage_isOk_iff`: all relocations are applied exactly if each alone would be.
* `relocateImage_perm`: relocations of disjoint ranges of bytes can be applied in any order.
-/
namespace Dlx

/-! ## Ranges of bytes -/

/-- The byte with index `j` is one of those that a relocation is for. There is none for type none, nor
for a code that is no type. -/
def Reloc.Covers (r : Reloc UInt32) (j : Nat) : Prop :=
  ∃ ty, RelocType.ofCode? r.type = some ty ∧
    r.offset.toNat ≤ j ∧ j < r.offset.toNat + ty.rule.size

/-- No byte belongs to both relocations. -/
def Reloc.Apart (r r' : Reloc UInt32) : Prop := ∀ j, ¬ (r.Covers j ∧ r'.Covers j)

section

variable {address : UInt32} {lookup : String → Option UInt32} {r r' : Reloc UInt32} {w w' : Write}

theorem Reloc.apart_iff : r.Apart r' ↔
    ∀ ty ∈ RelocType.ofCode? r.type, ∀ ty' ∈ RelocType.ofCode? r'.type, ty = .none ∨ ty' = .none ∨
      r.offset.toNat + ty.rule.size ≤ r'.offset.toNat ∨
      r'.offset.toNat + ty'.rule.size ≤ r.offset.toNat := by
  constructor
  · intro h ty hty ty' hty'
    by_contra hover
    simp only [not_or, Nat.not_le] at hover
    obtain ⟨hne, hne', hlt, hlt'⟩ := hover
    have hpos := Nat.pos_of_ne_zero fun h0 => hne ((RelocType.size_eq_zero_iff ty).mp h0)
    have hpos' := Nat.pos_of_ne_zero fun h0 => hne' ((RelocType.size_eq_zero_iff ty').mp h0)
    -- ranges that overlap share the byte at which the later one starts
    exact h (max r.offset.toNat r'.offset.toNat)
      ⟨⟨ty, hty, by omega, by omega⟩, ty', hty', by omega, by omega⟩
  · rintro h j ⟨⟨ty, hty, hge, hlt⟩, ty', hty', hge', hlt'⟩
    have hzero := RelocType.size_eq_zero_iff ty
    have hzero' := RelocType.size_eq_zero_iff ty'
    rcases h ty hty ty' hty' with hnone | hnone | hle | hle
    · have := hzero.mpr hnone
      omega
    · have := hzero'.mpr hnone
      omega
    · omega
    · omega

instance (r r' : Reloc UInt32) : Decidable (r.Apart r') := decidable_of_iff' _ Reloc.apart_iff

theorem size_pos_of_relocWrite? (h : relocWrite? address lookup r = some w) : 0 < w.size := by
  unfold relocWrite? at h
  obtain ⟨ty, -, h⟩ := Option.bind_eq_some_iff.mp h
  split at h
  · cases h
  · next hty =>
    obtain ⟨symbol, -, h⟩ := Option.bind_eq_some_iff.mp h
    cases h
    exact Nat.pos_of_ne_zero fun h0 => hty ((RelocType.size_eq_zero_iff ty).mp h0)

theorem Reloc.Apart.writes (ha : r.Apart r') (h : relocWrite? address lookup r = some w)
    (h' : relocWrite? address lookup r' = some w') : w.Apart w' := by
  have hpos := size_pos_of_relocWrite? h
  have hpos' := size_pos_of_relocWrite? h'
  obtain ⟨ty, hty, hoffset, hsize⟩ := offset_size_of_relocWrite? h
  obtain ⟨ty', hty', hoffset', hsize'⟩ := offset_size_of_relocWrite? h'
  rw [hsize] at hpos
  rw [hsize'] at hpos'
  rw [Write.Apart, hoffset, hsize, hoffset', hsize']
  rcases Reloc.apart_iff.mp ha ty hty ty' hty' with hnone | hnone | hapart
  · exact absurd ((RelocType.size_eq_zero_iff ty).mpr hnone) (Nat.ne_of_gt hpos)
  · exact absurd ((RelocType.size_eq_zero_iff ty').mpr hnone) (Nat.ne_of_gt hpos')
  · exact hapart

end

/-! ## Relocated images -/

theorem Write.shift_zero (w : Write) : w.shift 0 = w := by
  simp only [Write.shift, Nat.zero_add]

section

variable {image out : Bytes} {base : UInt32} {lookup : String → Option UInt32}
  {relocs relocs' : List (Reloc UInt32)}

theorem relocateImage_eq_ok_iff :
    relocateImage image base relocs lookup = .ok out ↔
      (∀ r ∈ relocs, Applicable ⟨base, 0, image.length⟩ lookup r) ∧
        writeAll image (relocs.filterMap (relocWrite? base lookup)) = out := by
  have hwrites : (relocs.filterMap (patchOf? ⟨base, 0, image.length⟩ lookup)).map Patch.write =
      relocs.filterMap (relocWrite? base lookup) := by
    rw [List.map_filterMap]
    congr 1
    funext r
    simp only [write_patchOf?, Write.shift_zero, Option.map_id']
  simp only [relocateImage, Except.bind_eq_ok_iff, plan_eq_ok_iff, applyPatches_eq_ok_iff]
  constructor
  · rintro ⟨_, ⟨happ, rfl⟩, -, hout⟩
    exact ⟨happ, hwrites ▸ hout⟩
  · rintro ⟨happ, hout⟩
    refine ⟨_, ⟨happ, rfl⟩, ?_, hwrites ▸ hout⟩
    intro patch hpatch
    obtain ⟨r, hr, hpatch⟩ := List.mem_filterMap.mp hpatch
    exact (happ r hr).ready hpatch (Nat.le_of_eq (Nat.zero_add _))

theorem relocateImage_isOk_iff :
    (∃ out, relocateImage image base relocs lookup = .ok out) ↔
      ∀ r ∈ relocs, ∃ out, relocateImage image base [r] lookup = .ok out := by
  simp [relocateImage_eq_ok_iff]

theorem writeAll_relocs_perm (hp : relocs.Perm relocs') (ha : relocs.Pairwise Reloc.Apart)
    (happ : ∀ r ∈ relocs, Applicable ⟨base, 0, image.length⟩ lookup r) :
    writeAll image (relocs.filterMap (relocWrite? base lookup)) =
      writeAll image (relocs'.filterMap (relocWrite? base lookup)) := by
  refine writeAll_perm (hp.filterMap _) ?_ ?_
  · intro w hw
    obtain ⟨r, hr, hw⟩ := List.mem_filterMap.mp hw
    exact (happ r hr).within hw
  · exact ha.filterMap _ fun r r' hapart w hw w' hw' => hapart.writes hw hw'

end

/-- Relocations for disjoint ranges of bytes succeed in one order exactly if they do in any other,
and then give the same bytes. -/
theorem relocateImage_perm (image : Bytes) (base : UInt32) (lookup : String → Option UInt32)
    (relocs relocs' : List (Reloc UInt32)) (ha : relocs.Pairwise Reloc.Apart)
    (hp : relocs.Perm relocs') :
    ((∃ out, relocateImage image base relocs lookup = .ok out) ↔
      ∃ out, relocateImage image base relocs' lookup = .ok out) ∧
    ∀ out out', relocateImage image base relocs lookup = .ok out →
      relocateImage image base relocs' lookup = .ok out' → out = out' := by
  refine ⟨?_, ?_⟩
  · rw [relocateImage_isOk_iff, relocateImage_isOk_iff]
    exact ⟨fun h r hr => h r (hp.mem_iff.mpr hr), fun h r hr => h r (hp.mem_iff.mp hr)⟩
  · intro out out' h h'
    obtain ⟨happ, rfl⟩ := relocateImage_eq_ok_iff.mp h
    obtain ⟨-, rfl⟩ := relocateImage_eq_ok_iff.mp h'
    exact writeAll_relocs_perm hp ha happ

/-- Fields of three widths side by side, and a relocation of type none over one of them. -/
def sideBySide : List (Reloc UInt32) :=
  [⟨4, "x", 2, -1⟩, ⟨0, "f", 6, 0⟩, ⟨4, "", 0, 0⟩, ⟨12, "x", 3, 8⟩]

theorem relocateImage_perm_sideBySide :
    ∃ lookup : String → Option UInt32,
      sideBySide.Pairwise Reloc.Apart ∧ sideBySide.Perm sideBySide.reverse ∧
      relocateImage [0, 0, 0, 12, 7, 7, 7, 7, 7, 7, 7, 7, 0, 0, 33, 32] 0x1000 sideBySide.reverse
        lookup = .ok [4, 0, 0, 12, 0x47, 0x23, 1, 0, 0, 0, 0, 0, 0x50, 0x23, 33, 32] := by
  have hapart : sideBySide.Pairwise Reloc.Apart := by decide
  have hperm := (List.reverse_perm sideBySide).symm
  refine ⟨(NameMap.ofList [("x", 0x12348), ("f", 0x1010)]).find?, hapart, hperm, ?_⟩
  have hok : relocateImage [0, 0, 0, 12, 7, 7, 7, 7, 7, 7, 7, 7, 0, 0, 33, 32] 0x1000 sideBySide
      (NameMap.ofList [("x", 0x12348), ("f", 0x1010)]).find? =
        .ok [4, 0, 0, 12, 0x47, 0x23, 1, 0, 0, 0, 0, 0, 0x50, 0x23, 33, 32] := rfl
  obtain ⟨hiff, heq⟩ := relocateImage_perm _ _ _ sideBySide sideBySide.reverse hapart hperm
  obtain ⟨out, hout⟩ := hiff.mp ⟨_, hok⟩
  rw [hout, heq _ _ hok hout]

end Dlx
