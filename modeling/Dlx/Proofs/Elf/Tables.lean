import Dlx.Elf.Record

/-!
# Tables of records

A table is a run of records of one size. It is read as a whole by `records` and entry by entry by
`recordAt`; the records themselves are read from a run of bytes by `readValues` and from a place in
the file by `readFields`.

Results:
* `range_append`, `readFields_eq_ok`: reading inside a file succeeds and gives the bytes and the
  numbers that stand there.
* `recordAt_eq_ok`: an entry read alone is the entry read with the whole table.
* `map_records_flatMap`: a table that was written record by record is read back, as far as the
  fields hold the numbers. The section headers, symbols and relocations of a file are the cases
  `ofFields_sectionHeaders`, `ofFields_symbols` and `ofFields_relas`; `ofFields_fileHeader` is the
  same for the one record in front of them.
-/
namespace Dlx.Elf

/-! ## Reading at a place -/

section Range

variable {bs : Bytes} {start stop : Nat}

theorem range_eq_ok_iff {out : Bytes} : range bs start stop = .ok out ↔
    stop < capacity 64 ∧ stop ≤ bs.length ∧ (bs.drop start).take (stop - start) = out := by
  unfold range
  split
  · next h => simp [Nat.not_lt.mpr h]
  · next h =>
    split
    · next hin => simp [Nat.not_le.mp h, hin]
    · next hout => simp [hout]

theorem range_append {before middle after : Bytes} (h : bs.length < capacity 64)
    (hbs : bs = before ++ middle ++ after) :
    range bs before.length (before.length + middle.length) = .ok middle := by
  have hlen : before.length + middle.length ≤ bs.length := by simp [hbs]
  refine range_eq_ok_iff.mpr ⟨by omega, hlen, ?_⟩
  rw [hbs, List.append_assoc, List.drop_left, Nat.add_sub_cancel_left, List.take_left]

end Range

theorem readFields_eq_ok {bs : Bytes} {offset : Nat} {widths : List Nat}
    (h : bs.length < capacity 64) (hin : offset + recordSize widths ≤ bs.length) :
    readFields bs offset widths = .ok (readValues widths (bs.drop offset)) := by
  induction widths generalizing offset with
  | nil => rfl
  | cons w ws ih =>
    rw [recordSize] at hin
    have hw : range bs offset (offset + w) = .ok ((bs.drop offset).take w) :=
      range_eq_ok_iff.mpr ⟨by omega, by omega, by rw [Nat.add_sub_cancel_left]⟩
    rw [readFields, hw, ih (by omega), readValues, List.drop_drop]
    rfl

/-! ## Entries of a table -/

theorem getElem?_takeRecords (widths : List Nat) (count : Nat) (table : Bytes) (i : Nat) :
    (takeRecords widths count table)[i]? =
      if i < count then some (readValues widths (table.drop (i * recordSize widths)))
      else none := by
  induction count generalizing table i with
  | zero => rfl
  | succ count ih =>
    cases i with
    | zero => simp [takeRecords]
    | succ i =>
      rw [takeRecords, List.getElem?_cons_succ, ih, List.drop_drop, Nat.succ_mul, Nat.add_comm]
      simp

/-- A record read alone is the record of the table that was read as a whole. -/
theorem recordAt_eq_ok {widths : List Nat} {table : Bytes} {i : Nat} {values : List Nat}
    (h : table.length < capacity 64) (hi : (records widths table)[i]? = some values) :
    recordAt widths table i = .ok values := by
  rw [records, getElem?_takeRecords] at hi
  split at hi
  · next hlt =>
    injection hi with hi
    have hpos : 0 < recordSize widths := Nat.pos_of_ne_zero fun h0 => by simp [h0] at hlt
    have hend : (i + 1) * recordSize widths ≤ table.length :=
      (Nat.le_div_iff_mul_le hpos).mp hlt
    rw [Nat.succ_mul] at hend
    have hne : ¬ table.isEmpty = true := by
      rw [List.isEmpty_iff]
      intro h0
      simp only [h0, List.length_nil] at hend
      omega
    rw [recordAt, if_neg hne, if_neg (by omega), if_neg (by omega), readFields_eq_ok h hend, hi]
  · cases hi

/-! ## Writing and reading back -/

/-- A field keeps the low bytes of its number. -/
theorem length_recordBytes (fields : List (Nat × Nat)) :
    (recordBytes fields).length = recordSize (fields.map (·.1)) := by
  induction fields with
  | nil => rfl
  | cons f fs ih =>
    rw [List.map_cons, recordSize, ← ih, recordBytes, List.flatMap_cons, List.length_append,
      length_leBytes]
    rfl

/-- What is left of the numbers of a record once it is written. -/
def kept (fields : List (Nat × Nat)) : List (Nat × Nat) :=
  fields.map fun f => (f.1, f.2 % capacity (8 * f.1))

theorem recordBytes_kept (fields : List (Nat × Nat)) :
    recordBytes (kept fields) = recordBytes fields := by
  simp only [recordBytes, kept, List.flatMap_map, leBytes_mod]

theorem readValues_kept (fields : List (Nat × Nat)) (rest : Bytes) :
    readValues (fields.map (·.1)) (recordBytes fields ++ rest) = (kept fields).map (·.2) := by
  have hfits : ∀ f ∈ kept fields, f.2 < capacity (8 * f.1) := by
    intro f hf
    obtain ⟨g, -, rfl⟩ := List.mem_map.mp hf
    exact Nat.mod_lt _ (capacity_pos _)
  have h := readValues_recordBytes (kept fields) rest hfits
  rwa [recordBytes_kept, kept, List.map_map] at h

section Written

variable {α : Type} {widths : List Nat} {fields : α → List (Nat × Nat)} {l : List α}

theorem length_flatMap_recordBytes (hw : ∀ a ∈ l, (fields a).map (·.1) = widths) :
    (l.flatMap fun a => recordBytes (fields a)).length = l.length * recordSize widths := by
  induction l with
  | nil => simp
  | cons a l ih =>
    have ih := ih fun b hb => hw b (List.mem_cons_of_mem _ hb)
    rw [List.flatMap_cons, List.length_append, ih, length_recordBytes, hw a List.mem_cons_self,
      List.length_cons, Nat.succ_mul, Nat.add_comm]

theorem takeRecords_flatMap (hw : ∀ a ∈ l, (fields a).map (·.1) = widths) :
    takeRecords widths l.length (l.flatMap fun a => recordBytes (fields a)) =
      l.map fun a => (kept (fields a)).map (·.2) := by
  induction l with
  | nil => rfl
  | cons a l ih =>
    have ih := ih fun b hb => hw b (List.mem_cons_of_mem _ hb)
    have ha := hw a List.mem_cons_self
    have hsize : (recordBytes (fields a)).length = recordSize widths := by
      rw [length_recordBytes, ha]
    rw [List.flatMap_cons, List.length_cons, takeRecords, List.drop_left' hsize, ih, List.map_cons,
      ← ha, readValues_kept]

/-- A table written record by record is read back when each record can be made from what its fields
hold. -/
theorem map_records_flatMap {make : List Nat → α} (hpos : 0 < recordSize widths)
    (hw : ∀ a ∈ l, (fields a).map (·.1) = widths)
    (hmake : ∀ a ∈ l, make ((kept (fields a)).map (·.2)) = a) :
    (records widths (l.flatMap fun a => recordBytes (fields a))).map make = l := by
  rw [records, length_flatMap_recordBytes hw, Nat.mul_div_cancel _ hpos, takeRecords_flatMap hw,
    List.map_map]
  exact (List.map_congr_left hmake).trans (List.map_id' l)

end Written

/-! ## The header and the tables of a file -/

structure FileHeader.Fits (h : FileHeader) : Prop where
  type : h.type < 0x10000
  machine : h.machine < 0x10000
  entry : h.entry < 0x100000000
  programOffset : h.programOffset < 0x100000000
  sectionOffset : h.sectionOffset < 0x100000000
  programEntrySize : h.programEntrySize < 0x10000
  programCount : h.programCount < 0x10000
  sectionEntrySize : h.sectionEntrySize < 0x10000
  sectionCount : h.sectionCount < 0x10000
  namesIndex : h.namesIndex < 0x10000

/-- The fields behind the identification. -/
def FileHeader.record (h : FileHeader) : Bytes := h.bytes.drop 16

theorem FileHeader.bytes_eq (h : FileHeader) : h.bytes = ident ++ h.record := rfl

theorem FileHeader.length_record (h : FileHeader) : h.record.length = 36 := length_recordBytes _

theorem ofFields_fileHeader (h : FileHeader) (hf : h.Fits) :
    .ofFields (readValues (FileHeader.widths .elf32) h.record) = h := by
  have hcap4 : capacity (8 * 4) = 0x100000000 := rfl
  have hcap2 : capacity (8 * 2) = 0x10000 := rfl
  have hread := readValues_kept
    [(2, h.type), (2, h.machine), (4, 1), (4, h.entry), (4, h.programOffset), (4, h.sectionOffset),
     (4, 0), (2, fileHeaderSize), (2, h.programEntrySize), (2, h.programCount),
     (2, h.sectionEntrySize), (2, h.sectionCount), (2, h.namesIndex)] []
  rw [List.append_nil] at hread
  refine (congrArg FileHeader.ofFields hread).trans ?_
  simp only [kept, List.map_cons, List.map_nil, FileHeader.ofFields, hcap4, hcap2,
    Nat.mod_eq_of_lt hf.type, Nat.mod_eq_of_lt hf.machine, Nat.mod_eq_of_lt hf.entry,
    Nat.mod_eq_of_lt hf.programOffset, Nat.mod_eq_of_lt hf.sectionOffset,
    Nat.mod_eq_of_lt hf.programEntrySize, Nat.mod_eq_of_lt hf.programCount,
    Nat.mod_eq_of_lt hf.sectionEntrySize, Nat.mod_eq_of_lt hf.sectionCount,
    Nat.mod_eq_of_lt hf.namesIndex]
  rfl

/-- The fields of a section header are words. -/
structure SectionHeader.Fits (h : SectionHeader) : Prop where
  name : h.name < 0x100000000
  type : h.type < 0x100000000
  flags : h.flags < 0x100000000
  address : h.address < 0x100000000
  offset : h.offset < 0x100000000
  size : h.size < 0x100000000
  link : h.link < 0x100000000
  info : h.info < 0x100000000
  align : h.align < 0x100000000
  entrySize : h.entrySize < 0x100000000

theorem length_sectionHeaders (hs : List SectionHeader) :
    (hs.flatMap SectionHeader.bytes).length = hs.length * sectionHeaderSize :=
  @length_flatMap_recordBytes _ (SectionHeader.widths .elf32) _ hs fun _ _ => rfl

theorem ofFields_sectionHeaders (hs : List SectionHeader) (hfits : ∀ h ∈ hs, h.Fits) :
    (records (SectionHeader.widths .elf32) (hs.flatMap SectionHeader.bytes)).map .ofFields =
      hs := by
  refine map_records_flatMap (by decide) (fun _ _ => rfl) ?_
  intro h hmem
  have hf := hfits h hmem
  have hcap : capacity (8 * 4) = 0x100000000 := rfl
  simp only [kept, List.map_cons, List.map_nil, SectionHeader.ofFields, hcap,
    Nat.mod_eq_of_lt hf.name, Nat.mod_eq_of_lt hf.type, Nat.mod_eq_of_lt hf.flags,
    Nat.mod_eq_of_lt hf.address, Nat.mod_eq_of_lt hf.offset, Nat.mod_eq_of_lt hf.size,
    Nat.mod_eq_of_lt hf.link, Nat.mod_eq_of_lt hf.info, Nat.mod_eq_of_lt hf.align,
    Nat.mod_eq_of_lt hf.entrySize]
  rfl

structure SymbolRecord.Fits (s : SymbolRecord) : Prop where
  name : s.name < 0x100000000
  value : s.value < 0x100000000
  info : s.info < 0x100
  sectionIndex : s.sectionIndex < 0x10000

theorem ofFields_symbols (l : List SymbolRecord) (hfits : ∀ s ∈ l, s.Fits) :
    (records (SymbolRecord.widths .elf32) (l.flatMap SymbolRecord.bytes)).map
      (.ofFields .elf32) = l := by
  refine map_records_flatMap (by decide) (fun _ _ => rfl) ?_
  intro s hmem
  have hf := hfits s hmem
  have hcap4 : capacity (8 * 4) = 0x100000000 := rfl
  have hcap2 : capacity (8 * 2) = 0x10000 := rfl
  have hcap1 : capacity (8 * 1) = 0x100 := rfl
  simp only [kept, List.map_cons, List.map_nil, SymbolRecord.ofFields, hcap4, hcap2, hcap1,
    Nat.mod_eq_of_lt hf.name, Nat.mod_eq_of_lt hf.value, Nat.mod_eq_of_lt hf.info,
    Nat.mod_eq_of_lt hf.sectionIndex]
  rfl

/-- The symbol index has 24 bits, the type 8, and the addend is a signed word. -/
structure RelaRecord.Fits (r : RelaRecord) : Prop where
  offset : r.offset < 0x100000000
  symbol : r.symbol < 0x1000000
  type : r.type < 0x100
  addend : -0x80000000 ≤ r.addend.toInt ∧ r.addend.toInt < 0x80000000

/-- A number that fits a signed word is the sign extension of its low word. -/
theorem ofInt_bmod_low_word {a : Int64} (h : -0x80000000 ≤ a.toInt ∧ a.toInt < 0x80000000) :
    Int64.ofInt (Int.bmod ((a.toUInt64.toNat % 0x100000000 : Nat) : Int) 0x100000000) = a := by
  have hlow : a.toInt = Int.bmod (a.toUInt64.toNat : Int) 0x10000000000000000 :=
    BitVec.toInt_eq_toNat_bmod a.toBitVec
  have hmod : Int.bmod ((a.toUInt64.toNat % 0x100000000 : Nat) : Int) 0x100000000 = a.toInt := by
    simp only [Int.bmod] at hlow ⊢
    omega
  rw [hmod, Int64.ofInt_toInt]

theorem ofFields_relas (l : List RelaRecord) (hfits : ∀ r ∈ l, r.Fits) :
    (records (RelaRecord.widths .elf32) (l.flatMap RelaRecord.bytes)).map
      (.ofFields .elf32) = l := by
  refine map_records_flatMap (by decide) (fun _ _ => rfl) ?_
  intro r hmem
  have hf := hfits r hmem
  have hsymbol := hf.symbol
  have htype := hf.type
  have hcap4 : capacity (8 * 4) = 0x100000000 := rfl
  have hinfo : r.symbol * 256 + r.type < 0x100000000 := by omega
  have hdiv : (r.symbol * 256 + r.type) / capacity 8 = r.symbol := by
    rw [show capacity 8 = 256 from rfl]
    omega
  have hrem : (r.symbol * 256 + r.type) % capacity 8 = r.type := by
    rw [show capacity 8 = 256 from rfl]
    omega
  simp only [kept, List.map_cons, List.map_nil, RelaRecord.ofFields, hcap4,
    Nat.mod_eq_of_lt hf.offset, Nat.mod_eq_of_lt hinfo, List.getD_cons_zero, List.getD_cons_succ,
    hdiv, hrem]
  rw [ofInt_bmod_low_word hf.addend]

end Dlx.Elf
