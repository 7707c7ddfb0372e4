import Dlx.Proofs.Assembly.Growth
import Dlx.Proofs.NameMap
import Mathlib.Data.List.Basic

/-!
# Finishing an assembly

Each fixup of a section is either written into the data or becomes a relocation, and no fixup
depends on what became of the others. So the finished section is said at once: the writes of the
settled fixups, and the relocations of the others in order.

Results:
* `Fixup.patch_eq_ok_iff`: patching is a write of the fixup's size, if the value fits.
* `slice?_closed`, `relocs_closed_ordered`: fixups that are left to the linker keep their bytes, and
  their relocations do not overlap.
* `finish_eq_ok_iff`: when an assembly can be finished, and the object.
-/
namespace Dlx

/-! ## Patching a fixup -/

/-- The values that the field of a fixup takes. Small data may be meant with or without sign. -/
def FixupKind.Fits (kind : FixupKind) (value : Int) : Prop :=
  match kind.relocType? with
  | some ty => ty.Fits value
  | none => -(capacity (8 * kind.size - 1) : Int) ≤ value ∧ value < capacity (8 * kind.size)

theorem FixupKind.fits_of_relocType? {kind : FixupKind} {ty : RelocType}
    (h : kind.relocType? = some ty) (value : Int) : kind.Fits value ↔ ty.Fits value := by
  rw [Fits, h]

theorem FixupKind.relocType?_of_data? {size : Nat} {kind : FixupKind} {ty : RelocType}
    (hkind : data? size = some kind) (hty : kind.relocType? = some ty) :
    ty = .abs32 ∧ size = 4 ∨ ty = .abs64 ∧ size = 8 := by
  unfold data? at hkind
  split at hkind <;> cases hkind <;> cases hty <;> simp

namespace Fixup

/-- The write that gives a fixup its value. -/
def write (f : Fixup) (v : UInt64) : Write :=
  match f.kind.relocType? with
  | some ty => ty.write f.offset.toNat v
  | none => ⟨f.offset.toNat, f.kind.size, fun _ => leBytes f.kind.size v.toNat,
      fun _ _ => length_leBytes _ _⟩

theorem write_of_relocType? {f : Fixup} {ty : RelocType} (h : f.kind.relocType? = some ty)
    (v : UInt64) : f.write v = ty.write f.offset.toNat v := by
  rw [write, h]

@[simp] theorem offset_write (f : Fixup) (v : UInt64) : (f.write v).offset = f.offset.toNat := by
  unfold write
  split <;> rfl

@[simp] theorem size_write (f : Fixup) (v : UInt64) : (f.write v).size = f.kind.size := by
  unfold write
  split
  · next ty h => exact FixupKind.size_of_relocType? h
  · rfl

/-- Data is overwritten with the low bytes of the value. -/
theorem new_write_data {size : Nat} {f : Fixup} (hkind : FixupKind.data? size = some f.kind)
    (v : UInt64) (old : Bytes) : (f.write v).new old = leBytes size v.toNat := by
  cases hty : f.kind.relocType? with
  | none =>
    rw [← FixupKind.size_of_data? hkind]
    unfold write
    rw [hty]
  | some ty =>
    have hcut : ∀ n, leBytes n (UInt64.ofNat (v.toNat % capacity (8 * n))).toNat =
        leBytes n v.toNat := by
      intro n
      have hlt : v.toNat % capacity (8 * n) < 2 ^ 64 :=
        Nat.lt_of_le_of_lt (Nat.mod_le _ _) v.toNat_lt
      rw [UInt64.toNat_ofNat_of_lt' hlt, leBytes_mod]
    rw [write_of_relocType? hty]
    rcases FixupKind.relocType?_of_data? hkind hty with ⟨rfl, rfl⟩ | ⟨rfl, rfl⟩
    · exact hcut 4
    · exact hcut 8

theorem patchSmallData_eq_ok_iff {size offset : Nat} {data out : Bytes} {v : UInt64} :
    patchSmallData size data offset v = .ok out ↔
      (-(capacity (8 * size - 1) : Int) ≤ v.toInt64.toInt ∧
        v.toInt64.toInt < capacity (8 * size)) ∧
      offset + size ≤ data.length ∧ splice data offset (leBytes size v.toNat) = out := by
  unfold patchSmallData
  dsimp only
  by_cases hfit : -(capacity (8 * size - 1) : Int) ≤ v.toInt64.toInt ∧
      v.toInt64.toInt < capacity (8 * size)
  · have hn : ¬ (v.toInt64.toInt < -(capacity (8 * size - 1) : Int) ∨
        (capacity (8 * size) : Int) ≤ v.toInt64.toInt) := by omega
    rw [if_neg hn]
    by_cases hb : offset + size ≤ data.length <;> simp [hb, hfit]
  · have hp : v.toInt64.toInt < -(capacity (8 * size - 1) : Int) ∨
        (capacity (8 * size) : Int) ≤ v.toInt64.toInt := by omega
    rw [if_pos hp]
    simp [hfit]

theorem patch_eq_ok_iff {f : Fixup} {data out : Bytes} {v : UInt64} :
    f.patch v data = .ok out ↔
      f.kind.Fits v.toInt64.toInt ∧ (f.write v).Within data.length ∧
        (f.write v).apply data = out := by
  unfold patch
  cases hty : f.kind.relocType? with
  | some ty =>
    have hne := FixupKind.ne_none_of_relocType? hty
    rw [write_of_relocType? hty, FixupKind.fits_of_relocType? hty]
    simp [Except.mapError_eq_ok_iff, RelocType.patch_eq_ok_iff, hne]
  | none =>
    cases hk : f.kind <;> rw [hk] at hty <;> cases hty <;>
      simp [patchSmallData_eq_ok_iff, FixupKind.Fits, FixupKind.relocType?, FixupKind.size, write,
        Write.Within, Write.apply, hk]

end Fixup

theorem FixupKind.toReloc_eq_ok_iff {kind : FixupKind} {ty : RelocType} :
    kind.toReloc = .ok ty ↔ kind.relocType? = some ty := by
  cases kind <;> simp [toReloc, relocType?]

/-! ## The fixups of a section -/

/-- A reference to one symbol waits for the linker, unless it is a distance that is known already. -/
theorem settle_of_refers? {localPc : Bool} {symbols : SymbolTable} {home : Nat} {f : Fixup}
    {m : Marker} {symbol : String} {addend : Int64}
    (h : f.value.refers? = some ⟨m, some symbol, none, addend⟩)
    (hpc : (f.kind.isPcRelative && localPc) = false) :
    settle localPc symbols home f = .ok (.deferred symbol addend) := by
  unfold settle
  rw [h]
  dsimp only
  cases symbols.offsetIn? home symbol <;> simp [hpc]

namespace Assembly

/-- The fixup of a section has a value that fits, or can be left to the linker. -/
def Settles (a : Assembly) (home : Nat) (f : Fixup) : Prop :=
  match settle a.localPc a.symbols home f with
  | .ok (.settled v) => f.kind.Fits v.toInt64.toInt
  | .ok (.deferred _ _) => f.kind.relocType?.isSome
  | .error _ => False

/-- What is written for a fixup that has a value. -/
def settledWrite? (a : Assembly) (home : Nat) (f : Fixup) : Option Write :=
  match settle a.localPc a.symbols home f with
  | .ok (.settled v) => some (f.write v)
  | _ => none

/-- The relocation for a fixup that has none. -/
def deferredReloc? (a : Assembly) (home : Nat) (f : Fixup) : Option (Reloc RelocType) :=
  match settle a.localPc a.symbols home f with
  | .ok (.deferred symbol addend) => f.kind.relocType?.map fun ty => ⟨f.offset, symbol, ty, addend⟩
  | _ => none

/-- A relocation has the place of its fixup. -/
theorem place_of_deferredReloc? {a : Assembly} {home : Nat} {f : Fixup} {r : Reloc RelocType}
    (h : a.deferredReloc? home f = some r) :
    r.offset = f.offset ∧ r.type.rule.size = f.kind.size := by
  unfold deferredReloc? at h
  split at h
  · obtain ⟨ty, hty, rfl⟩ := Option.map_eq_some_iff.mp h
    exact ⟨rfl, FixupKind.size_of_relocType? hty⟩
  · cases h

theorem finishFixup_eq_ok_iff {a : Assembly} {home : Nat} {data : Bytes}
    {relocs : List (Reloc RelocType)} {f : Fixup}
    (hin : f.offset.toNat + f.kind.size ≤ data.length) {out : Bytes × List (Reloc RelocType)} :
    a.finishFixup home data relocs f = .ok out ↔
      a.Settles home f ∧ (writeAll data (a.settledWrite? home f).toList,
        relocs ++ (a.deferredReloc? home f).toList) = out := by
  unfold finishFixup Settles settledWrite? deferredReloc?
  cases settle a.localPc a.symbols home f with
  | error e => simp [bind, Except.bind]
  | ok outcome =>
    cases outcome with
    | settled v =>
      have hw : (f.write v).Within data.length := by simpa [Write.Within] using hin
      simp only [Except.bind_eq_ok_iff, Except.ok.injEq, exists_eq_left', Fixup.patch_eq_ok_iff, hw,
        true_and, Option.toList_some, Option.toList_none, List.append_nil, writeAll_cons,
        writeAll_nil, pure, Except.pure]
      constructor
      · rintro ⟨_, ⟨hf, rfl⟩, h⟩
        exact ⟨hf, h⟩
      · rintro ⟨hf, h⟩
        exact ⟨_, ⟨hf, rfl⟩, h⟩
    | deferred symbol addend =>
      simp only [Except.bind_eq_ok_iff, Except.ok.injEq, exists_eq_left',
        FixupKind.toReloc_eq_ok_iff, Option.toList_none, writeAll_nil, pure, Except.pure]
      cases f.kind.relocType? <;> simp

theorem settledWrite?_within {a : Assembly} {home : Nat} {f : Fixup} {len : Nat}
    (hin : f.offset.toNat + f.kind.size ≤ len) {w : Write} (hw : a.settledWrite? home f = some w) :
    w.Within len := by
  unfold settledWrite? at hw
  split at hw
  · cases hw
    simpa [Write.Within] using hin
  · cases hw

theorem finishFixups_eq_ok_iff {a : Assembly} {home : Nat} {fixups : List Fixup} {data : Bytes}
    {relocs : List (Reloc RelocType)}
    (hin : ∀ f ∈ fixups, f.offset.toNat + f.kind.size ≤ data.length)
    {out : Bytes × List (Reloc RelocType)} :
    a.finishFixups home fixups data relocs = .ok out ↔
      (∀ f ∈ fixups, a.Settles home f) ∧
        (writeAll data (fixups.filterMap (a.settledWrite? home)),
          relocs ++ fixups.filterMap (a.deferredReloc? home)) = out := by
  induction fixups generalizing data relocs with
  | nil => simp [finishFixups]
  | cons f rest ih =>
    obtain ⟨hf, hrest⟩ := List.forall_mem_cons.mp hin
    have hlen : (writeAll data (a.settledWrite? home f).toList).length = data.length :=
      length_writeAll fun w hw => settledWrite?_within hf (Option.mem_toList.mp hw)
    simp only [List.filterMap_eq_flatMap_toList, List.flatMap_cons, List.forall_mem_cons,
      writeAll_append, ← List.append_assoc, and_assoc] at ih ⊢
    simp only [finishFixups, Except.bind_eq_ok_iff, finishFixup_eq_ok_iff hf, Prod.exists,
      Prod.mk.injEq]
    constructor
    · rintro ⟨_, _, ⟨hs, rfl, rfl⟩, h⟩
      exact ⟨hs, (ih (by rwa [hlen])).mp h⟩
    · rintro ⟨hs, h⟩
      exact ⟨_, _, ⟨hs, rfl, rfl⟩, (ih (by rwa [hlen])).mpr h⟩

/-! ## The object -/

/-- A section as it is in the object. -/
def closed (a : Assembly) (home : Nat) (s : OpenSection) : Section RelocType :=
  ⟨s.name, s.kind, writeAll s.data (s.fixups.filterMap (a.settledWrite? home)),
    s.fixups.filterMap (a.deferredReloc? home)⟩

theorem length_closed {a : Assembly} {s : OpenSection} (hs : s.Tidy) (home : Nat) :
    (a.closed home s).data.length = s.data.length := by
  apply length_writeAll
  intro w hw
  obtain ⟨f, hf, hw⟩ := List.mem_filterMap.mp hw
  exact settledWrite?_within (hs.within f hf) hw

section Closed

variable {a : Assembly} {home : Nat} {s : OpenSection} (hs : s.Tidy)
  (hlen : s.data.length < 0x100000000)

include hs hlen

/-- No write reaches the place of a fixup that waits for the linker. -/
theorem slice?_closed {f : Fixup} (hf : f ∈ s.fixups) {r : Reloc RelocType}
    (hr : a.deferredReloc? home f = some r) :
    slice? (a.closed home s).data f.offset.toNat f.kind.size =
      slice? s.data f.offset.toNat f.kind.size := by
  have hsettled : a.settledWrite? home f = none := by
    unfold deferredReloc? at hr
    unfold settledWrite?
    split at hr
    · next h => rw [h]
    · cases hr
  refine slice?_writeAll_of_apart ?_ ?_
  · intro w hw
    obtain ⟨g, hg, hw⟩ := List.mem_filterMap.mp hw
    exact settledWrite?_within (hs.within g hg) hw
  · intro w hw
    obtain ⟨g, hg, hw⟩ := List.mem_filterMap.mp hw
    have hplace : w.offset = g.offset.toNat ∧ w.size = g.kind.size := by
      unfold settledWrite? at hw
      split at hw
      · cases hw
        exact ⟨Fixup.offset_write _ _, Fixup.size_write _ _⟩
      · cases hw
    have hne : f ≠ g := by
      intro h
      rw [← h, hsettled] at hw
      cases hw
    rw [hplace.1, hplace.2]
    exact hs.apart hlen hf hg hne

/-- The relocations of a section are in order and do not overlap. -/
theorem relocs_closed_ordered :
    (a.closed home s).relocs.Pairwise fun r r' =>
      r.offset.toNat + r.type.rule.size ≤ r'.offset.toNat := by
  refine List.Pairwise.filterMap _ ?_ (hs.ordered hlen)
  intro f g hfg r hr r' hr'
  obtain ⟨hoffset, hsize⟩ := place_of_deferredReloc? hr
  rw [hoffset, hsize, (place_of_deferredReloc? hr').1]
  exact hfg

end Closed

theorem finishSections_eq_ok_iff {a : Assembly} {home : Nat} {sections : List OpenSection}
    (htidy : ∀ s ∈ sections, s.Tidy) {out : List (Section RelocType)} :
    a.finishSections home sections = .ok out ↔
      (∀ x ∈ sections.zipIdx home, ∀ f ∈ x.1.fixups, a.Settles x.2 f) ∧
        ((sections.zipIdx home).map fun x => a.closed x.2 x.1) = out := by
  induction sections generalizing home out with
  | nil => simp [finishSections]
  | cons s rest ih =>
    obtain ⟨hs, hrest⟩ := List.forall_mem_cons.mp htidy
    simp only [finishSections, Except.bind_eq_ok_iff, finishFixups_eq_ok_iff hs.within, ih hrest,
      List.zipIdx_cons, List.forall_mem_cons, List.map_cons, List.nil_append, Prod.exists,
      Prod.mk.injEq]
    constructor
    · rintro ⟨_, _, ⟨hset, rfl, rfl⟩, _, ⟨hset', rfl⟩, h⟩
      exact ⟨⟨hset, hset'⟩, Except.ok.inj h⟩
    · rintro ⟨⟨hset, hset'⟩, rfl⟩
      exact ⟨_, _, ⟨hset, rfl, rfl⟩, _, ⟨hset', rfl⟩, rfl⟩

/-- All fixups have values that fit or can be left to the linker. -/
def AllSettle (a : Assembly) : Prop :=
  ∀ (i : Nat) (s : OpenSection), a.sections[i]? = some s → ∀ f ∈ s.fixups, a.Settles i f

/-- The symbols that the unit lists, as they are in the object. -/
def listedSymbols (a : Assembly) : List Symbol := a.symbols.entries.map fun (name, d) => symbolOf name d

theorem Sound.home_lt {a : Assembly} (ha : a.Sound) {s : Symbol} (h : s ∈ a.listedSymbols) {i : Nat}
    (hi : s.home = some i) : i < a.sections.length := by
  obtain ⟨⟨name, d⟩, hd, rfl⟩ := List.mem_map.mp h
  obtain ⟨t, ht, -⟩ := ha.home name d i (NameMap.find?_of_mem_entries hd) hi
  exact (List.getElem?_eq_some_iff.mp ht).1

/-- The object that the assembly becomes. -/
def object (a : Assembly) : Object RelocType :=
  ⟨a.sections.mapIdx a.closed, a.listedSymbols ++
    (a.unlistedNames (a.sections.mapIdx a.closed)).map fun name => ⟨name, none, 0, true⟩⟩

theorem finish_eq_ok_iff {a : Assembly} (ha : a.Sound) {o : Object RelocType} :
    a.finish = .ok o ↔ a.AllSettle ∧ a.object = o := by
  have hsettle : a.AllSettle ↔
      ∀ x ∈ a.sections.zipIdx, ∀ f ∈ x.1.fixups, a.Settles x.2 f := by
    constructor
    · intro h x hx
      exact h x.2 x.1 (List.mem_zipIdx_iff_getElem?.mp hx)
    · intro h i s hs
      exact h (s, i) (List.mem_zipIdx_iff_getElem?.mpr hs)
  simp only [finish, Except.bind_eq_ok_iff, finishSections_eq_ok_iff ha.tidy, hsettle, object,
    List.mapIdx_eq_zipIdx_map]
  constructor
  · rintro ⟨_, ⟨h, rfl⟩, hr⟩
    exact ⟨h, Except.ok.inj hr⟩
  · rintro ⟨h, rfl⟩
    exact ⟨_, ⟨h, rfl⟩, rfl⟩

theorem mapM_finish_eq_ok_iff {units : List Assembly} (hs : ∀ a ∈ units, a.Sound)
    {objects : List (Object RelocType)} :
    units.mapM finish = .ok objects ↔
      (∀ a ∈ units, a.AllSettle) ∧ units.map object = objects := by
  induction units generalizing objects with
  | nil => simp [pure, Except.pure]
  | cons a units ih =>
    obtain ⟨ha, hrest⟩ := List.forall_mem_cons.mp hs
    simp only [List.mapM_cons, Except.bind_eq_ok_iff, ih hrest, finish_eq_ok_iff ha,
      List.forall_mem_cons, List.map_cons]
    constructor
    · rintro ⟨_, ⟨hset, rfl⟩, _, ⟨hsets, rfl⟩, h⟩
      exact ⟨⟨hset, hsets⟩, Except.ok.inj h⟩
    · rintro ⟨⟨hset, hsets⟩, rfl⟩
      exact ⟨_, ⟨hset, rfl⟩, _, ⟨hsets, rfl⟩, rfl⟩

end Assembly

end Dlx
