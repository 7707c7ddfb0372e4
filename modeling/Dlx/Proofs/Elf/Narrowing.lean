import Dlx.Proofs.Assembly.Names
import Dlx.Proofs.Elf.RoundTrip

/-!
# Addends in an object file

An addend has 64 bits in an object and 32 in its file. So an object and its narrowed copy, in which
every addend is the sign extension of its low word, have the same file, and the copy is what is read
back.

Results:
* `writeObject_narrowed`: narrowing the addends of an object does not change its file.
* `readObject_of_wellFormed`: a file within the limits of the format is read, and gives the narrowed
  object with a symbol for each section.
-/
namespace Dlx

/-! ## Narrow addends -/

/-- The sign extension of the low word. -/
def narrow (a : Int64) : Int64 := a.toInt32.toInt64

theorem toInt_narrow (a : Int64) : (narrow a).toInt = Int.bmod a.toInt 0x100000000 := by
  rw [narrow, Int32.toInt_toInt64, Int64.toInt_toInt32]

theorem narrow_bounds (a : Int64) :
    -0x80000000 ≤ (narrow a).toInt ∧ (narrow a).toInt < 0x80000000 := by
  rw [narrow, Int32.toInt_toInt64]
  exact ⟨a.toInt32.le_toInt, a.toInt32.toInt_lt⟩

theorem narrow_eq_self {a : Int64} (h : -0x80000000 ≤ a.toInt ∧ a.toInt < 0x80000000) :
    narrow a = a := by
  apply Int64.toInt_inj.mp
  rw [toInt_narrow, Int.bmod_def]
  split <;> omega

/-- Narrowing keeps the low word. -/
theorem toUInt32_narrow (a : Int64) : (narrow a).toUInt64.toUInt32 = a.toUInt64.toUInt32 := by
  have hnarrow := toNat_toUInt64_cast (narrow a)
  have ha := toNat_toUInt64_cast a
  rw [toInt_narrow, Int.bmod_def] at hnarrow
  apply UInt32.toNat_inj.mp
  rw [UInt64.toNat_toUInt32, UInt64.toNat_toUInt32]
  split at hnarrow <;> omega

section

variable {κ : Type}

def Reloc.narrowed (r : Reloc κ) : Reloc κ := { r with addend := narrow r.addend }

def Section.narrowed (s : Section κ) : Section κ := { s with relocs := s.relocs.map Reloc.narrowed }

/-- The object with all addends narrow. -/
def Object.narrowed (o : Object κ) : Object κ :=
  { o with sections := o.sections.map Section.narrowed }

@[simp] theorem sections_narrowed (o : Object κ) :
    o.narrowed.sections = o.sections.map Section.narrowed := rfl

@[simp] theorem symbols_narrowed (o : Object κ) : o.narrowed.symbols = o.symbols := rfl

end

namespace Elf

/-! ## The file -/

theorem orderedSymbols_narrowed (o : Object RelocType) :
    orderedSymbols o.narrowed = orderedSymbols o := rfl

theorem bytes_relaRecord_narrowed (o : Object RelocType) (r : Reloc RelocType) :
    (relaRecord o.narrowed r.narrowed).bytes = (relaRecord o r).bytes := by
  have hlow : (narrow r.addend).toUInt64.toNat % capacity (8 * 4) =
      r.addend.toUInt64.toNat % capacity (8 * 4) := by
    have h := congrArg UInt32.toNat (toUInt32_narrow r.addend)
    rwa [UInt64.toNat_toUInt32, UInt64.toNat_toUInt32] at h
  have haddend : leBytes 4 (narrow r.addend).toUInt64.toNat = leBytes 4 r.addend.toUInt64.toNat := by
    rw [← leBytes_mod, hlow, leBytes_mod]
  have hindex : symbolIndex r.symbol (1 + o.narrowed.sections.length) (orderedSymbols o.narrowed) =
      symbolIndex r.symbol (1 + o.sections.length) (orderedSymbols o) := by
    rw [sections_narrowed, List.length_map, orderedSymbols_narrowed]
  simp only [relaRecord, RelaRecord.bytes, recordBytes, Reloc.narrowed, hindex, List.flatMap_cons,
    haddend]

theorem relaParts_narrowed (o : Object RelocType) (link index : Nat)
    (sections : List (Section RelocType)) :
    relaParts o.narrowed link index (sections.map Section.narrowed) =
      relaParts o link index sections := by
  induction sections generalizing index with
  | nil => rfl
  | cons s rest ih =>
    have hbytes : (s.relocs.map Reloc.narrowed).flatMap (fun r => (relaRecord o.narrowed r).bytes) =
        s.relocs.flatMap fun r => (relaRecord o r).bytes := by
      rw [List.flatMap_map]
      simp only [bytes_relaRecord_narrowed]
    simp only [List.map_cons, relaParts, Section.narrowed, List.isEmpty_map, hbytes, ih]

theorem filter_narrowed (sections : List (Section RelocType)) :
    ((sections.map Section.narrowed).filter (!·.relocs.isEmpty)).length =
      (sections.filter (!·.relocs.isEmpty)).length := by
  rw [List.filter_map, List.length_map]
  simp [Function.comp_def, Section.narrowed]

theorem writeObject_narrowed (o : Object RelocType) : writeObject o.narrowed = writeObject o := by
  have hsections : (o.sections.map Section.narrowed).map sectionPart = o.sections.map sectionPart :=
    List.map_map
  have hparts : objectParts o.narrowed = objectParts o := by
    simp only [objectParts, symbolRecords, sections_narrowed, symbols_narrowed, relaParts_narrowed,
      orderedSymbols_narrowed, hsections, filter_narrowed, List.length_map]
  simp only [writeObject, hparts]

theorem withinLimits_narrowed {o : Object RelocType} (h : WithinLimits o) :
    WithinLimits o.narrowed := by
  constructor
  case fileSize => exact writeObject_narrowed o ▸ h.fileSize
  case headerCount =>
    rw [sections_narrowed, filter_narrowed, List.length_map]
    exact h.headerCount
  case symbolCount =>
    rw [sections_narrowed, symbols_narrowed, List.length_map]
    exact h.symbolCount

theorem sized_narrowed {o : Object RelocType}
    (hhomes : ∀ s ∈ o.symbols, ∀ i, s.home = some i → i < o.sections.length)
    (hlisted : ∀ s ∈ o.sections, ∀ r ∈ s.relocs, r.symbol ∈ o.symbols.map (·.name))
    (hl : WithinLimits o) : Sized o.narrowed := by
  have hrelocs : ∀ t ∈ o.narrowed.sections, ∀ r ∈ t.relocs,
      ∃ s ∈ o.sections, ∃ q ∈ s.relocs, r = q.narrowed := by
    intro t ht r hr
    obtain ⟨s, hs, rfl⟩ := List.mem_map.mp ht
    obtain ⟨q, hq, rfl⟩ := List.mem_map.mp hr
    exact ⟨s, hs, q, hq, rfl⟩
  constructor
  case toWithinLimits => exact withinLimits_narrowed hl
  case homes =>
    intro s hs i hi
    rw [sections_narrowed, List.length_map]
    exact hhomes s hs i hi
  case listed =>
    intro t ht r hr
    obtain ⟨s, hs, q, hq, rfl⟩ := hrelocs t ht r hr
    exact hlisted s hs q hq
  case addends =>
    intro t ht r hr
    obtain ⟨s, hs, q, hq, rfl⟩ := hrelocs t ht r hr
    exact narrow_bounds q.addend

theorem writable_narrowed {o : Object RelocType} (h : o.WellFormed) (hl : WithinLimits o) :
    Writable o.narrowed := by
  constructor
  case toSized => exact sized_narrowed h.homes h.listed hl
  case distinctSections =>
    have hnames : o.narrowed.sections.map (·.name) = o.sections.map (·.name) := List.map_map
    exact hnames ▸ h.distinctSections
  case sectionNames =>
    intro t ht
    obtain ⟨s, hs, rfl⟩ := List.mem_map.mp ht
    exact (h.sectionNames s hs).nul_notMem
  case symbolNames =>
    intro s hs
    have hname := h.symbolNames s hs
    exact ⟨hname.nul_notMem, hname.ne_empty⟩

/-- A file within the limits is read back, with narrow addends. -/
theorem readObject_of_wellFormed {o : Object RelocType} (h : o.WellFormed) (hl : WithinLimits o) :
    readObject (writeObject o) =
      .ok ⟨o.narrowed.withCodes.sections, standIns o.sections ++ orderedSymbols o⟩ := by
  have hw := writable_narrowed h hl
  have hstand : standIns o.narrowed.sections = standIns o.sections := standIns_map fun _ _ => rfl
  rw [← writeObject_narrowed, hw.toSized.readObject_eq_ok (readSymbolsFrom_symbolRecords hw),
    hw.map_filed, hstand, orderedSymbols_narrowed]

end Elf

end Dlx
