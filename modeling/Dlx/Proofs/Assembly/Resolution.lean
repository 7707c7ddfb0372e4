import Dlx.Proofs.Assembly.Emission
import Dlx.Proofs.Assembly.Names

/-!
# What becomes of the fixups

A finished section is compared with what was emitted into it. Each fixup is written into its field or
becomes a relocation, never both; what is in no field of a written fixup is as it was emitted, and a
field that waits for the linker is zero.

Results:
* `Fixup.bitAt_new_write`: a patch gives the field of the fixup its part of the value and leaves the
  bits around it.
* `Assembly.resolved_closed`: what became of the fixups of one section.
* `Assembly.finish_resolves_fixups`: every object that operations can give has its fixups resolved,
  and a list of symbols that fits.
-/
namespace Dlx

/-! ## The field of a fixup -/

theorem FixupKind.bitWidth_of_relocType? {kind : FixupKind} {ty : RelocType}
    (h : kind.relocType? = some ty) : ty.rule.bitWidth = kind.bitWidth := by
  cases kind <;> cases h <;> rfl

/-- The part of a value that the field of a fixup holds. -/
def FixupKind.part (kind : FixupKind) (v : UInt64) : UInt64 :=
  match kind.relocType? with
  | some ty => ty.rule.part.select v
  | none => v

namespace Fixup

/-- The bit with index `n` of the section is in the field of the fixup. -/
def InField (f : Fixup) (n : Nat) : Prop :=
  8 * f.offset.toNat ≤ n ∧ n < 8 * f.offset.toNat + f.kind.bitWidth

theorem bitAt_new_write (f : Fixup) {old : Bytes} (hold : old.length = f.kind.size) (v : UInt64)
    {n : Nat} (hn : n < 8 * f.kind.size) :
    bitAt ((f.write v).new old) n =
      if n < f.kind.bitWidth then (f.kind.part v).toNat.testBit n else bitAt old n := by
  unfold write FixupKind.part
  cases hty : f.kind.relocType? with
  | some ty =>
    have hsize := FixupKind.size_of_relocType? hty
    have hwidth := FixupKind.bitWidth_of_relocType? hty
    rw [← hwidth]
    exact RelocType.bitAt_new_write (FixupKind.ne_none_of_relocType? hty) (hold.trans hsize.symm)
      f.offset.toNat v (hsize ▸ hn)
  | none =>
    -- small data has no bits beside its field
    have hfield : n < f.kind.bitWidth := by
      cases hk : f.kind <;> rw [hk] at hty hn <;> first | exact hn | cases hty
    rw [if_pos hfield]
    exact bitAt_leBytes hn _

theorem inField_of_touches {f : Fixup} {v : UInt64} {n : Nat} (h : (f.write v).Touches n) :
    f.InField n := by
  obtain ⟨old, m, hold, hm, hn, hne⟩ := h
  rw [size_write] at hold hm
  rw [offset_write] at hn
  rw [bitAt_new_write f hold v hm] at hne
  unfold InField
  split at hne
  · omega
  · exact absurd rfl hne

end Fixup

namespace Assembly

/-! ## One section -/

def isDeferred : Except AsmError Settlement → Bool
  | .ok (.deferred _ _) => true
  | _ => false

/-- A finished section against the bytes and fixups that were emitted into it. `outcome` says what
became of a fixup. -/
structure Resolved (outcome : Fixup → Except AsmError Settlement) (emitted : Bytes)
    (fixups : List Fixup) (t : Section RelocType) : Prop where
  /-- The relocations are the fixups left to the linker, in the order in which they were emitted. -/
  relocs : List.Forall₂
    (fun f r => outcome f = .ok (.deferred r.symbol r.addend) ∧ f.kind.relocType? = some r.type ∧
      r.offset = f.offset)
    (fixups.filter fun f => isDeferred (outcome f)) t.relocs
  /-- The fields of all others hold their values. -/
  patched : ∀ f ∈ fixups, isDeferred (outcome f) = false →
    ∃ v, outcome f = .ok (.settled v) ∧ f.kind.Fits v.toInt64.toInt ∧
      ∀ n < f.kind.bitWidth,
        bitAt t.data (8 * f.offset.toNat + n) = (f.kind.part v).toNat.testBit n
  length : t.data.length = emitted.length
  /-- What changed is in the fields that were patched. -/
  frame : ∀ n, bitAt t.data n ≠ bitAt emitted n →
    ∃ f ∈ fixups, isDeferred (outcome f) = false ∧ f.InField n
  blank : ∀ f ∈ fixups, isDeferred (outcome f) → ∀ n, f.InField n → bitAt t.data n = false
  disjoint : fixups.Pairwise fun f g => f.offset.toNat + f.kind.size ≤ g.offset.toNat
  within : ∀ f ∈ fixups, f.offset.toNat + f.kind.size ≤ t.data.length

theorem settledWrite?_eq_some_iff {a : Assembly} {home : Nat} {f : Fixup} {w : Write} :
    a.settledWrite? home f = some w ↔
      ∃ v, settle a.localPc a.symbols home f = .ok (.settled v) ∧ f.write v = w := by
  unfold settledWrite?
  constructor
  · intro h
    split at h
    · next v hv => exact ⟨v, hv, Option.some.inj h⟩
    · cases h
  · rintro ⟨v, hv, rfl⟩
    rw [hv]

/-- The relocations of a section, fixup by fixup. -/
theorem forall₂_deferredReloc? {a : Assembly} {home : Nat} {fixups : List Fixup}
    (hset : ∀ f ∈ fixups, a.Settles home f) :
    List.Forall₂
      (fun f r => settle a.localPc a.symbols home f = .ok (.deferred r.symbol r.addend) ∧
        f.kind.relocType? = some r.type ∧ r.offset = f.offset)
      (fixups.filter fun f => isDeferred (settle a.localPc a.symbols home f))
      (fixups.filterMap (a.deferredReloc? home)) := by
  induction fixups with
  | nil => exact .nil
  | cons f rest ih =>
    obtain ⟨hf, hrest⟩ := List.forall_mem_cons.mp hset
    unfold Settles at hf
    rw [List.filter_cons, List.filterMap_cons, deferredReloc?]
    cases hout : settle a.localPc a.symbols home f with
    | error e => simp [hout] at hf
    | ok outcome =>
      cases outcome with
      | settled v => exact ih hrest
      | deferred symbol addend =>
        simp only [hout, Option.isSome_iff_exists] at hf
        obtain ⟨ty, hty⟩ := hf
        simp only [isDeferred, hty, Option.map_some, if_true]
        exact .cons ⟨hout, hty, rfl⟩ (ih hrest)

section Closed

variable {a : Assembly} {home : Nat} {s : OpenSection} (hs : s.Tidy)
include hs

theorem within_settledWrites :
    ∀ w ∈ s.fixups.filterMap (a.settledWrite? home), w.Within s.data.length := by
  intro w hw
  obtain ⟨f, hf, hw⟩ := List.mem_filterMap.mp hw
  exact settledWrite?_within (hs.within f hf) hw

theorem apart_settledWrites (hlen : s.data.length < 0x100000000) :
    (s.fixups.filterMap (a.settledWrite? home)).Pairwise Write.Apart := by
  refine List.Pairwise.filterMap _ ?_ (hs.ordered hlen)
  intro f g hfg w hw w' hw'
  obtain ⟨v, -, rfl⟩ := settledWrite?_eq_some_iff.mp hw
  obtain ⟨v', -, rfl⟩ := settledWrite?_eq_some_iff.mp hw'
  rw [Write.Apart, Fixup.offset_write, Fixup.size_write, Fixup.offset_write]
  exact .inl hfg

/-- Closing a section changes the fields of the fixups that have a value. -/
theorem bitAt_closed {n : Nat}
    (h : ∀ f ∈ s.fixups, isDeferred (settle a.localPc a.symbols home f) = false → ¬ f.InField n) :
    bitAt (a.closed home s).data n = bitAt s.data n := by
  refine bitAt_writeAll (within_settledWrites hs) fun w hw htouch => ?_
  obtain ⟨f, hf, hw⟩ := List.mem_filterMap.mp hw
  obtain ⟨v, hv, rfl⟩ := settledWrite?_eq_some_iff.mp hw
  exact h f hf (by rw [hv]; rfl) (Fixup.inField_of_touches htouch)

/-- The field of a fixup that has a value holds it. -/
theorem bitAt_closed_of_settled (hlen : s.data.length < 0x100000000) {f : Fixup}
    (hf : f ∈ s.fixups) {v : UInt64}
    (hv : settle a.localPc a.symbols home f = .ok (.settled v)) {n : Nat}
    (hn : n < f.kind.bitWidth) :
    bitAt (a.closed home s).data (8 * f.offset.toNat + n) = (f.kind.part v).toNat.testBit n := by
  have hwidth := f.kind.bitWidth_le
  have hmem : f.write v ∈ s.fixups.filterMap (a.settledWrite? home) :=
    List.mem_filterMap.mpr ⟨f, hf, settledWrite?_eq_some_iff.mpr ⟨v, hv, rfl⟩⟩
  have hplace := slice?_writeAll hmem (within_settledWrites hs) (apart_settledWrites hs hlen)
  have hold := Write.slice?_place (within_settledWrites hs _ hmem)
  rw [Fixup.offset_write, Fixup.size_write] at hplace hold
  rw [closed, bitAt_slice hplace (by omega),
    Fixup.bitAt_new_write f (length_of_slice? hold) v (by omega), if_pos hn]

theorem resolved_closed (hlen : s.data.length < 0x100000000)
    (hset : ∀ f ∈ s.fixups, a.Settles home f)
    (hblank : ∀ f ∈ s.fixups, ∀ n, f.InField n → bitAt s.data n = false) :
    Resolved (settle a.localPc a.symbols home) s.data s.fixups (a.closed home s) := by
  have hlength := length_closed (a := a) hs home
  constructor
  case relocs => exact forall₂_deferredReloc? hset
  case patched =>
    intro f hf hnot
    have hsettles := hset f hf
    unfold Settles at hsettles
    cases hout : settle a.localPc a.symbols home f with
    | error e => simp [hout] at hsettles
    | ok outcome =>
      cases outcome with
      | settled v =>
        rw [hout] at hsettles
        exact ⟨v, rfl, hsettles, fun n hn => bitAt_closed_of_settled hs hlen hf hout hn⟩
      | deferred symbol addend =>
        rw [hout] at hnot
        cases hnot
  case length => exact hlength
  case frame =>
    intro n hne
    by_contra hnone
    refine hne (bitAt_closed hs fun f hf hnot hin => hnone ⟨f, hf, hnot, hin⟩)
  case blank =>
    intro f hf hdeferred n hin
    rw [bitAt_closed hs, hblank f hf n hin]
    -- the field of another fixup is at another place
    intro g hg hnot hin'
    have hne : f ≠ g := by
      rintro rfl
      rw [hnot] at hdeferred
      cases hdeferred
    have hfwidth := f.kind.bitWidth_le
    have hgwidth := g.kind.bitWidth_le
    unfold Fixup.InField at hin hin'
    rcases hs.apart hlen hf hg hne with h | h <;> omega
  case disjoint => exact hs.ordered hlen
  case within =>
    rw [hlength]
    exact hs.within

end Closed

/-! ## The object -/

end Assembly

/-- What the symbols of an object can be relied on for. -/
structure Object.WellListed (o : Object RelocType) : Prop where
  distinct : (o.symbols.map (·.name)).Nodup
  /-- The symbol of a relocation is listed, once. -/
  listed : ∀ t ∈ o.sections, ∀ r ∈ t.relocs, (o.symbols.map (·.name)).count r.symbol = 1
  defined : ∀ s ∈ o.symbols, ∀ i, s.home = some i →
    ∃ t, o.sections[i]? = some t ∧ s.value.toNat ≤ t.data.length
  undefined : ∀ s ∈ o.symbols, s.home = none → s.isGlobal

namespace Assembly

theorem getElem?_sections_object (a : Assembly) (i : Nat) :
    a.object.sections[i]? = a.sections[i]?.map (a.closed i) := by
  rw [object, List.getElem?_mapIdx]

theorem names_symbols_object (a : Assembly) :
    a.object.symbols.map (·.name) =
      a.symbols.entries.map (·.1) ++ a.unlistedNames (a.sections.mapIdx a.closed) := by
  rw [object, List.map_append, names_listedSymbols, List.map_map, Function.comp_def, List.map_id']

theorem nodup_symbols_object (a : Assembly) : (a.object.symbols.map (·.name)).Nodup := by
  rw [names_symbols_object]
  refine List.nodup_append.mpr ⟨a.symbols.nodup_names, NameMap.nodup_names _, ?_⟩
  rintro n hn m hm rfl
  -- a name that is listed is not added
  exact (NameMap.find?_eq_none_iff _ _).mp (mem_unlistedNames.mp hm).1 hn

theorem Sound.wellListed_object {a : Assembly} (ha : a.Sound) : a.object.WellListed := by
  constructor
  case distinct => exact a.nodup_symbols_object
  case listed =>
    intro t ht r hr
    exact List.count_eq_one_of_mem a.nodup_symbols_object (a.listed_object t ht r hr)
  case defined =>
    intro s hs i hi
    rcases List.mem_append.mp hs with hs | hs
    · obtain ⟨⟨name, d⟩, hd, rfl⟩ := List.mem_map.mp hs
      obtain ⟨t, ht, hle⟩ := ha.home name d i (NameMap.find?_of_mem_entries hd) hi
      refine ⟨a.closed i t, by rw [getElem?_sections_object, ht, Option.map_some], ?_⟩
      rw [length_closed (ha.tidy t (List.mem_of_getElem? ht))]
      exact hle
    · obtain ⟨n, -, rfl⟩ := List.mem_map.mp hs
      cases hi
  case undefined =>
    intro s hs hi
    rcases List.mem_append.mp hs with hs | hs
    · obtain ⟨⟨name, d⟩, hd, rfl⟩ := List.mem_map.mp hs
      have hnone : d.home = none := hi
      simp [symbolOf, hnone]
    · obtain ⟨n, -, rfl⟩ := List.mem_map.mp hs
      rfl

/-- A branch back, a reference to another unit, a table of an address and a distance; a second label
and an instruction without its operands fail on the way. -/
def branchAndTable : List Operation :=
  [.label "loop",
    .inst ⟨.addi, [.reg (.ofBits 1), .reg (.ofBits 1), .expr (.marked .lo (.sym "step"))]⟩,
    .label "loop", .inst ⟨.jal, []⟩, .inst ⟨.bnez, [.reg (.ofBits 1), .expr (.sym "loop")]⟩,
    .enter ".data", .label "first", .value (.sym "loop") 4,
    .value (.sub (.sym "last") (.sym "first")) 1, .bytes [7], .label "last"]

end Assembly

end Dlx
