import Mathlib.Data.List.Forall2
import Mathlib.Data.List.TakeWhile
import Dlx.Elf.Record

/-!
# Names in string tables

A file stores its names as UTF-8, each with a zero byte after it, and refers to a name by the offset
of its first byte.

Results:
* `decodeUtf8_encodeUtf8`: every string is read back from its bytes.
* `zero_mem_utf8EncodeChar_iff`: the bytes of a character hold a zero byte only for NUL.
* `nameAt_nameOffsets`: in a string table, the name at each of the offsets is the name that was put
  there, up to a NUL.
-/
namespace Dlx.Text

/-! ## Conditions on bytes as conditions on numbers -/

theorem isContinuation_iff (b : UInt8) :
    isContinuation b = true ↔ 0x80 ≤ b.toNat ∧ b.toNat ≤ 0xbf := by
  simp [isContinuation, UInt8.le_iff_toNat_le]

theorem isSecondOfThree_iff (a b : UInt8) :
    isSecondOfThree a b = true ↔ 0x80 ≤ b.toNat ∧ b.toNat ≤ 0xbf ∧
      (a.toNat = 0xe0 → 0xa0 ≤ b.toNat) ∧ (a.toNat = 0xed → b.toNat ≤ 0x9f) := by
  unfold isSecondOfThree
  split
  · next h => subst h; simp [UInt8.le_iff_toNat_le]; omega
  · next h =>
    have ha : a.toNat ≠ 0xe0 := fun e => h (UInt8.toNat_inj.mp e)
    split
    · next h => subst h; simp [UInt8.le_iff_toNat_le]; omega
    · next h =>
      have ha' : a.toNat ≠ 0xed := fun e => h (UInt8.toNat_inj.mp e)
      rw [isContinuation_iff]
      omega

theorem isSecondOfFour_iff (a b : UInt8) :
    isSecondOfFour a b = true ↔ 0x80 ≤ b.toNat ∧ b.toNat ≤ 0xbf ∧
      (a.toNat = 0xf0 → 0x90 ≤ b.toNat) ∧ (a.toNat = 0xf4 → b.toNat ≤ 0x8f) := by
  unfold isSecondOfFour
  split
  · next h => subst h; simp [UInt8.le_iff_toNat_le]; omega
  · next h =>
    have ha : a.toNat ≠ 0xf0 := fun e => h (UInt8.toNat_inj.mp e)
    split
    · next h => subst h; simp [UInt8.le_iff_toNat_le]; omega
    · next h =>
      have ha' : a.toNat ≠ 0xf4 := fun e => h (UInt8.toNat_inj.mp e)
      rw [isContinuation_iff]
      omega

/-! ## One character -/

section Decode

variable {index : Nat} {a b c d : UInt8} {rest : Bytes}

theorem decodeUtf8From_one (ha : a.toNat < 0x80) :
    decodeUtf8From index (a :: rest) =
      (decodeUtf8From (index + 1) rest).map (Char.ofNat a.toNat :: ·) := by
  have h : a < 0x80 := UInt8.lt_iff_toNat_lt.mpr ha
  rw [decodeUtf8From.eq_def]
  simp only [h, if_true]
  cases decodeUtf8From (index + 1) rest <;> rfl

theorem decodeUtf8From_two (ha : 0xc2 ≤ a.toNat ∧ a.toNat ≤ 0xdf)
    (hb : isContinuation b = true) :
    decodeUtf8From index (a :: b :: rest) = (decodeUtf8From (index + 2) rest).map
      (Char.ofNat (a.toNat % 32 * 64 + sixBits b) :: ·) := by
  have h1 : ¬ a < 0x80 := by simp [UInt8.lt_iff_toNat_lt]; omega
  have h2 : (0xc2 ≤ a && a ≤ 0xdf) = true := by simp [UInt8.le_iff_toNat_le]; omega
  rw [decodeUtf8From.eq_def]
  simp only [h1, h2, hb, if_true, if_false, Bool.not_true, Bool.false_eq_true]
  cases decodeUtf8From (index + 2) rest <;> rfl

theorem decodeUtf8From_three (ha : 0xe0 ≤ a.toNat ∧ a.toNat ≤ 0xef)
    (hb : isSecondOfThree a b = true) (hc : isContinuation c = true) :
    decodeUtf8From index (a :: b :: c :: rest) = (decodeUtf8From (index + 3) rest).map
      (Char.ofNat (a.toNat % 16 * 4096 + sixBits b * 64 + sixBits c) :: ·) := by
  have h1 : ¬ a < 0x80 := by simp [UInt8.lt_iff_toNat_lt]; omega
  have h2 : ¬ (0xc2 ≤ a && a ≤ 0xdf) = true := by simp [UInt8.le_iff_toNat_le]; omega
  have h3 : (0xe0 ≤ a && a ≤ 0xef) = true := by simp [UInt8.le_iff_toNat_le]; omega
  rw [decodeUtf8From.eq_def]
  simp only [h1, h2, h3, hb, hc, if_true, if_false, Bool.not_true, Bool.false_eq_true]
  cases decodeUtf8From (index + 3) rest <;> rfl

theorem decodeUtf8From_four (ha : 0xf0 ≤ a.toNat ∧ a.toNat ≤ 0xf4)
    (hb : isSecondOfFour a b = true) (hc : isContinuation c = true)
    (hd : isContinuation d = true) :
    decodeUtf8From index (a :: b :: c :: d :: rest) = (decodeUtf8From (index + 4) rest).map
      (Char.ofNat (a.toNat % 8 * 262144 + sixBits b * 4096 + sixBits c * 64 + sixBits d) :: ·) := by
  have h1 : ¬ a < 0x80 := by simp [UInt8.lt_iff_toNat_lt]; omega
  have h2 : ¬ (0xc2 ≤ a && a ≤ 0xdf) = true := by simp [UInt8.le_iff_toNat_le]; omega
  have h3 : ¬ (0xe0 ≤ a && a ≤ 0xef) = true := by simp [UInt8.le_iff_toNat_le]; omega
  have h4 : (0xf0 ≤ a && a ≤ 0xf4) = true := by simp [UInt8.le_iff_toNat_le]; omega
  rw [decodeUtf8From.eq_def]
  simp only [h1, h2, h3, h4, hb, hc, hd, if_true, if_false, Bool.not_true, Bool.false_eq_true]
  cases decodeUtf8From (index + 4) rest <;> rfl

end Decode

theorem toNat_ofNat_of_lt {n : Nat} (h : n < 256) : (UInt8.ofNat n).toNat = n := by
  rw [UInt8.toNat_ofNat']
  omega

/-- A character is read back from its bytes, whatever follows them. -/
theorem decodeUtf8From_utf8EncodeChar (c : Char) (rest : Bytes) (index : Nat) :
    ∃ next, decodeUtf8From index (String.utf8EncodeChar c ++ rest) =
      (decodeUtf8From next rest).map (c :: ·) := by
  have hvalid : c.val.toNat < 0xd800 ∨ 0xdfff < c.val.toNat ∧ c.val.toNat < 0x110000 := c.valid
  have hc : ∀ n, n = c.val.toNat → Char.ofNat n = c := fun n hn => hn ▸ Char.ofNat_toNat c
  simp only [String.utf8EncodeChar]
  generalize c.val.toNat = v at hvalid hc
  split
  · refine ⟨index + 1, ?_⟩
    have ha := @toNat_ofNat_of_lt v (by omega)
    rw [List.cons_append, List.nil_append, decodeUtf8From_one (by omega), hc _ ha]
  · split
    · refine ⟨index + 2, ?_⟩
      have ha := @toNat_ofNat_of_lt (v / 64 % 32 + 192) (by omega)
      have hb := @toNat_ofNat_of_lt (v % 64 + 128) (by omega)
      rw [List.cons_append, List.cons_append, List.nil_append,
        decodeUtf8From_two (by omega) ((isContinuation_iff _).mpr (by omega)),
        hc _ (by simp only [sixBits]; omega)]
    · split
      · refine ⟨index + 3, ?_⟩
        have ha := @toNat_ofNat_of_lt (v / 4096 % 16 + 224) (by omega)
        have hb := @toNat_ofNat_of_lt (v / 64 % 64 + 128) (by omega)
        have hd := @toNat_ofNat_of_lt (v % 64 + 128) (by omega)
        rw [List.cons_append, List.cons_append, List.cons_append, List.nil_append,
          decodeUtf8From_three (by omega) ((isSecondOfThree_iff _ _).mpr (by omega))
            ((isContinuation_iff _).mpr (by omega)), hc _ (by simp only [sixBits]; omega)]
      · refine ⟨index + 4, ?_⟩
        have ha := @toNat_ofNat_of_lt (v / 262144 % 8 + 240) (by omega)
        have hb := @toNat_ofNat_of_lt (v / 4096 % 64 + 128) (by omega)
        have hd := @toNat_ofNat_of_lt (v / 64 % 64 + 128) (by omega)
        have he := @toNat_ofNat_of_lt (v % 64 + 128) (by omega)
        rw [List.cons_append, List.cons_append, List.cons_append, List.cons_append,
          List.nil_append, decodeUtf8From_four (by omega) ((isSecondOfFour_iff _ _).mpr (by omega))
            ((isContinuation_iff _).mpr (by omega)) ((isContinuation_iff _).mpr (by omega)),
          hc _ (by simp only [sixBits]; omega)]

/-- Only the character NUL has a zero byte: the bytes of a longer sequence are all above `0x7f`. -/
theorem zero_mem_utf8EncodeChar_iff (c : Char) : 0 ∈ String.utf8EncodeChar c ↔ c = '\x00' := by
  have hc : c = '\x00' ↔ c.val.toNat = 0 := by
    rw [← Char.toNat_inj]
    rfl
  have hzero : ∀ n, 0 = UInt8.ofNat n ↔ n % 256 = 0 := fun n => by
    rw [← UInt8.toNat_inj, UInt8.toNat_ofNat']
    exact eq_comm
  have hvalid : c.val.toNat < 0xd800 ∨ 0xdfff < c.val.toNat ∧ c.val.toNat < 0x110000 := c.valid
  rw [hc]
  simp only [String.utf8EncodeChar]
  generalize c.val.toNat = v at hvalid
  split
  · simp only [List.mem_singleton, hzero]
    omega
  · split
    · simp only [List.mem_cons, List.not_mem_nil, or_false, hzero]
      omega
    · split <;>
      · simp only [List.mem_cons, List.not_mem_nil, or_false, hzero]
        omega

/-! ## Strings -/

theorem decodeUtf8From_encode (cs : List Char) (index : Nat) :
    decodeUtf8From index (cs.flatMap String.utf8EncodeChar) = .ok cs := by
  induction cs generalizing index with
  | nil => rfl
  | cons c cs ih =>
    obtain ⟨next, h⟩ := decodeUtf8From_utf8EncodeChar c (cs.flatMap String.utf8EncodeChar) index
    rw [List.flatMap_cons, h, ih]
    rfl

theorem decodeUtf8_encodeUtf8 (s : String) : decodeUtf8 (encodeUtf8 s) = .ok s := by
  rw [decodeUtf8, encodeUtf8, decodeUtf8From_encode]
  exact congrArg Except.ok String.ofList_toList

end Dlx.Text

namespace Dlx.Elf

/-! ## String tables -/

/-- A name can be stored when no zero byte would end it early. -/
def Storable (name : String) : Prop := '\x00' ∉ name.toList

instance (name : String) : Decidable (Storable name) := inferInstanceAs (Decidable (¬ _))

/-- The part of a name that can be read from a file: a NUL ends it. -/
def untilNul (name : String) : String := String.ofList (name.toList.takeWhile (· ≠ '\x00'))

theorem untilNul_eq_self {name : String} (h : Storable name) : untilNul name = name := by
  have hall : name.toList.takeWhile (· ≠ '\x00') = name.toList :=
    List.takeWhile_eq_self_iff.mpr fun c hc => decide_eq_true fun e => h (e ▸ hc)
  rw [untilNul, hall, String.ofList_toList]

theorem takeWhile_encode (cs : List Char) (after : Bytes) :
    (cs.flatMap String.utf8EncodeChar ++ 0 :: after).takeWhile (· ≠ 0) =
      (cs.takeWhile (· ≠ '\x00')).flatMap String.utf8EncodeChar := by
  induction cs with
  | nil => rfl
  | cons c cs ih =>
    by_cases hc : c = '\x00'
    · subst hc
      rfl
    · have hzero : ∀ b ∈ String.utf8EncodeChar c, decide (b ≠ 0) = true := fun b hb =>
        decide_eq_true fun e => hc ((Text.zero_mem_utf8EncodeChar_iff c).mp (e ▸ hb))
      have hkept : (c :: cs).takeWhile (· ≠ '\x00') = c :: cs.takeWhile (· ≠ '\x00') :=
        List.takeWhile_cons_of_pos (decide_eq_true hc)
      rw [hkept, List.flatMap_cons, List.flatMap_cons, List.append_assoc,
        List.takeWhile_append_of_pos hzero, ih]

theorem nameAt_append (name : String) (before after : Bytes) :
    nameAt (before ++ (Text.encodeUtf8 name ++ 0 :: after)) before.length = .ok (untilNul name) := by
  have hend : (Text.encodeUtf8 name ++ 0 :: after).takeWhile (· ≠ 0) =
      Text.encodeUtf8 (untilNul name) := by
    rw [Text.encodeUtf8, takeWhile_encode, Text.encodeUtf8, untilNul, String.toList_ofList]
  rw [nameAt, if_neg (by simp)]
  simp only [List.drop_left, hend, Text.decodeUtf8_encodeUtf8]
  rw [if_pos (by simp)]
  rfl

theorem nameAt_stringTable_zero (names : List String) : nameAt (stringTable names) 0 = .ok "" :=
  nameAt_append "" [] _

/-- A table is searched only within its bytes. -/
theorem le_length_of_nameAt {table : Bytes} {offset : Nat} {name : String}
    (h : nameAt table offset = .ok name) : offset ≤ table.length := by
  unfold nameAt at h
  split at h
  · cases h
  · next hin =>
    simp only [Bool.or_eq_true, decide_eq_true_eq, not_or] at hin
    omega

theorem nameAt_nameOffsets_append (before after : Bytes) (names : List String) :
    List.Forall₂
      (fun offset name =>
        nameAt (before ++ (names.flatMap fun n => Text.encodeUtf8 n ++ [0]) ++ after) offset =
          .ok (untilNul name))
      (nameOffsets before.length names) names := by
  induction names generalizing before with
  | nil => exact .nil
  | cons n rest ih =>
    -- the names in front belong to the bytes before the others
    have ih := ih (before ++ (Text.encodeUtf8 n ++ [0]))
    have hn := nameAt_append n before ((rest.flatMap fun n => Text.encodeUtf8 n ++ [0]) ++ after)
    simp only [List.length_append, List.length_singleton, ← Nat.add_assoc] at ih
    refine .cons ?_ ?_
    · simpa using hn
    · simpa using ih

/-- The offsets of names lead to the names. -/
theorem nameAt_nameOffsets (names : List String) :
    List.Forall₂ (fun offset name => nameAt (stringTable names) offset = .ok (untilNul name))
      (nameOffsets 1 names) names := by
  simpa [stringTable] using nameAt_nameOffsets_append [0] [] names

end Dlx.Elf
