import Dlx.Assembly
import Dlx.Listing
import Dlx.Proofs.Source.PrintedLine

/-!
# Assembling a listing

The texts in the last column of a listing are a source. Each of them is read as one statement, which
stands for the bytes that it was listed for, up to the bits that its instruction does not use; so the
source is assembled to the code again.

Results:
* `Holds.word`, `Holds.byte`: what the text of a word and of a single byte is assembled to.
* `assemble_rows`: lines are assembled to the bytes that they hold.
* `assemble_listing`: the last column of a listing is assembled to the listed code.
-/
namespace Dlx

/-- The text of a line of a listing: what stands behind the offset and the cell for its bytes. -/
def textColumn (line : List Char) : List Char := (line.dropWhile (· ≠ ':')).drop 12

/-- Code without the bits that its instructions do not use. -/
def canonical : Bytes → Bytes
  | a :: b :: c :: d :: rest => wordBytes (canonicalWord (bytesWord [a, b, c, d])) ++ canonical rest
  | rest => rest

theorem length_canonical (code : Bytes) : (canonical code).length = code.length := by
  fun_induction canonical code with
  | case1 a b c d rest ih =>
    rw [List.length_append, ih, wordBytes, length_leBytes]
    simp only [List.length_cons]
    omega
  | case2 => rfl

-- `jr r31` with all unused bits set, and a byte behind it
example : canonical [0xff, 0xff, 0xff, 0x4b, 0xff] = [0, 0, 0xe0, 0x4b, 0xff] := by decide

/-! ## Assembling data -/

/-- An assembly with nothing but code. -/
def Assembly.codeOnly (localPc : Bool) (data : Bytes) : Assembly :=
  ⟨localPc, [⟨".text", .text, data, []⟩], 0, .empty⟩

theorem Assembly.append_codeOnly (localPc : Bool) (data bytes : Bytes) :
    (codeOnly localPc data).append bytes [] = codeOnly localPc (data ++ bytes) := rfl

theorem Assembly.finish_codeOnly (localPc : Bool) (data : Bytes) :
    (codeOnly localPc data).finish = .ok ⟨[⟨".text", .text, data, []⟩], []⟩ := rfl

/-- Text that stands on one line. -/
abbrev Unbroken (cs : List Char) : Prop := '\n' ∉ cs ∧ '\r' ∉ cs

/-- A line that is read as one statement, which appends bytes to whatever code there is. -/
structure Holds (line : List Char) (bytes : Bytes) : Prop where
  ne_nil : line ≠ []
  unbroken : Unbroken line
  assembled : ∃ s, Source.readLine line = .ok [s] ∧ ∀ localPc data,
    (Assembly.codeOnly localPc data).statement s = .ok (.codeOnly localPc (data ++ bytes))

theorem unbroken_word {s : String} {c : Char} {t : List Char} (hs : Source.Word s c)
    (ht : Source.Operands t) : Unbroken (s.toList ++ ' ' :: t) :=
  ⟨Source.notMem_word hs ht (by decide) (by decide),
    Source.notMem_word hs ht (by decide) (by decide)⟩

theorem Holds.inst {w : UInt32} {i : Inst} (h : decode w = .ok i) :
    Holds i.text.toList (wordBytes (canonicalWord w)) where
  ne_nil := by
    obtain ⟨s, c, t, -, -, htext⟩ := Source.word_decoded h
    rw [htext]
    simp
  unbroken := by
    obtain ⟨s, c, t, hs, ht, htext⟩ := Source.word_decoded h
    rw [htext]
    exact unbroken_word hs ht
  assembled := by
    refine ⟨.inst i, Source.readLine_decoded h, ?_⟩
    intro localPc data
    rw [Assembly.statement, Assembly.inst, encode_of_decode h]
    exact congrArg Except.ok (Assembly.append_codeOnly localPc data _)

theorem Holds.data {directive : String} {size : Nat} (h : Source.dataSize? directive = some size)
    {kind : FixupKind} (hkind : FixupKind.data? size = some kind) {width n : Nat}
    (hn : n < capacity 63) : Holds (Source.dataLine directive width n) (leBytes size n) where
  ne_nil := by simp [Source.dataLine]
  unbroken :=
    unbroken_word (Source.word_directive h)
      (Source.operands_plain (List.cons_ne_nil _ _) (Source.plain_hex width n))
  assembled := by
    refine ⟨_, Source.readLine_data h hn, ?_⟩
    intro localPc data
    have hcap : capacity 63 = 0x8000000000000000 := rfl
    have hvalue : (Int64.ofNat n).toUInt64.toNat = n := by
      rw [Int64.toUInt64_ofNat', UInt64.toNat_ofNat']
      omega
    rw [Assembly.statement, Assembly.values, Assembly.value, hkind]
    simp only [Expr.constant?, hvalue]
    exact congrArg Except.ok (Assembly.append_codeOnly localPc data _)

theorem Holds.byte (b : UInt8) : Holds (Source.dataLine ".byte" 2 b.toNat) [b] := by
  have hcap : capacity 63 = 0x8000000000000000 := rfl
  have hb := b.toNat_lt
  have hbytes : leBytes 1 b.toNat = [b] := by rw [leBytes, leBytes, UInt8.ofNat_toNat]
  rw [← hbytes]
  exact Holds.data rfl rfl (by omega)

/-- The text of a word holds the word, as far as an instruction has all its bits. -/
theorem Holds.word (w : UInt32) : Holds (wordText w).toList (wordBytes (canonicalWord w)) := by
  have hcap : capacity 63 = 0x8000000000000000 := rfl
  have hw := w.toNat_lt
  cases h : decode w with
  | ok i =>
    have htext : wordText w = i.text := by rw [wordText, h]
    rw [htext]
    exact Holds.inst h
  | error e =>
    have htext : (wordText w).toList = Source.dataLine ".word" 8 w.toNat := by
      rw [wordText, h, String.toList_append]
      rfl
    have hword : canonicalWord w = w := by rw [canonicalWord, h]
    rw [htext, hword]
    exact Holds.data rfl rfl (by omega)

/-! ## Assembling lines -/

theorem readLines_rows {ps : List (List Char × Bytes)} (h : ∀ p ∈ ps, Holds p.1 p.2) (line : Nat) :
    ∃ ss, Source.readLines line (ps.map (·.1)) = .ok ss ∧ ∀ localPc data,
      (Assembly.codeOnly localPc data).statements ss =
        .ok (.codeOnly localPc (data ++ ps.flatMap (·.2))) := by
  induction ps generalizing line with
  | nil => exact ⟨[], rfl, fun localPc data => by simp [Assembly.statements]⟩
  | cons p ps ih =>
    obtain ⟨hp, hrest⟩ := List.forall_mem_cons.mp h
    obtain ⟨s, hread, hstep⟩ := hp.assembled
    obtain ⟨ss, hreads, hsteps⟩ := ih hrest (line + 1)
    refine ⟨s :: ss, ?_, ?_⟩
    · rw [List.map_cons, Source.readLines, Source.readNumberedLine, hread, hreads]
      rfl
    · intro localPc data
      rw [Assembly.statements, hstep, List.flatMap_cons, ← List.append_assoc]
      exact hsteps localPc _

/-- Lines are assembled to the bytes that they hold. -/
theorem assemble_rows {ps : List (List Char × Bytes)} (h : ∀ p ∈ ps, Holds p.1 p.2)
    (localPc : Bool) :
    assemble localPc (String.ofList (Text.joinLines (ps.map (·.1)))) =
      .ok ⟨[⟨".text", .text, ps.flatMap (·.2), []⟩], []⟩ := by
  have hlines : Text.lines (Text.joinLines (ps.map (·.1))) = ps.map (·.1) := by
    have hrow : ∀ l ∈ ps.map (·.1), l ≠ [] ∧ '\n' ∉ l ∧ '\r' ∉ l := by
      intro l hl
      obtain ⟨p, hp, rfl⟩ := List.mem_map.mp hl
      exact ⟨(h p hp).ne_nil, (h p hp).unbroken⟩
    exact Text.lines_joinLines (fun l hl => (hrow l hl).2) fun hlast =>
      (hrow [] (List.mem_of_getLast? hlast)).1 rfl
  obtain ⟨ss, hread, hsteps⟩ := readLines_rows h 1
  have hstart : Assembly.start localPc = .codeOnly localPc [] := rfl
  rw [assemble, Source.readProgram, String.toList_ofList, hlines, hread, hstart]
  change (Assembly.codeOnly localPc []).statements ss >>= _ = _
  rw [hsteps]
  exact Assembly.finish_codeOnly localPc _

/-! ## The lines of a listing -/

/-- The texts of a listing and the bytes that they hold. -/
def rows : Bytes → List (List Char × Bytes)
  | a :: b :: c :: d :: rest =>
    ((wordText (bytesWord [a, b, c, d])).toList,
      wordBytes (canonicalWord (bytesWord [a, b, c, d]))) :: rows rest
  | rest => rest.map fun b => (Source.dataLine ".byte" 2 b.toNat, [b])

theorem holds_of_mem_rows {code : Bytes} : ∀ p ∈ rows code, Holds p.1 p.2 := by
  fun_induction rows code with
  | case1 a b c d rest ih => exact List.forall_mem_cons.mpr ⟨Holds.word _, ih⟩
  | case2 rest =>
    intro p hp
    obtain ⟨b, -, rfl⟩ := List.mem_map.mp hp
    exact Holds.byte b

theorem flatMap_rows (code : Bytes) : (rows code).flatMap (·.2) = canonical code := by
  fun_induction rows code with
  | case1 a b c d rest ih => rw [List.flatMap_cons, ih, canonical]
  | case2 rest hshort =>
    rw [canonical, List.flatMap_map]
    · simp
    · exact hshort

theorem Unbroken.append {cs ds : List Char} (hcs : Unbroken cs) (hds : Unbroken ds) :
    Unbroken (cs ++ ds) := by
  simp only [Unbroken, List.mem_append, not_or]
  exact ⟨⟨hcs.1, hds.1⟩, ⟨hcs.2, hds.2⟩⟩

theorem notMem_hex {c : Char} (hc : ∀ k < 16, k.digitChar ≠ c) (width n : Nat) :
    c ∉ (Text.hex width n).toList := by
  intro h
  obtain ⟨k, hk, rfl⟩ := Text.mem_hex h
  exact hc k hk rfl

theorem unbroken_hex (width n : Nat) : Unbroken (Text.hex width n).toList :=
  ⟨notMem_hex (by decide) width n, notMem_hex (by decide) width n⟩

/-- A line of a listing is cut off with its text in the last column. -/
theorem textColumns_row (offset : Nat) {cell text : List Char} (hlength : cell.length = 11)
    (hcell : Unbroken cell) (htext : Unbroken text) (rest : List Char) :
    (Text.lines ((Text.hex 4 offset).toList ++ ':' :: (cell ++ text) ++ '\n' :: rest)).map
        textColumn = text :: (Text.lines rest).map textColumn := by
  have hsep : Unbroken [':'] := by decide
  have hline : Unbroken ((Text.hex 4 offset).toList ++ ':' :: (cell ++ text)) :=
    (unbroken_hex 4 offset).append (hsep.append (hcell.append htext))
  have hcolon : ((Text.hex 4 offset).toList ++ ':' :: (cell ++ text)).dropWhile (· ≠ ':') =
      ':' :: (cell ++ text) := by
    refine Source.dropWhile_stops ?_ rfl
    intro c hc
    have hne : c ≠ ':' := fun h => notMem_hex (by decide) 4 offset (h ▸ hc)
    simpa using hne
  rw [Text.lines_cons_break _ _ hline.1 hline.2, List.map_cons, textColumn, hcolon,
    List.drop_succ_cons, ← hlength, List.drop_left]

theorem textColumns_wordLine (offset : Nat) (w : UInt32) (rest : String) :
    (Text.lines (wordLine offset w ++ rest).toList).map textColumn =
      (wordText w).toList :: (Text.lines rest.toList).map textColumn := by
  have hlt : w.toNat < capacity (4 * 8) := w.toNat_lt
  have hlength : ([' '] ++ ((Text.hex 8 w.toNat).toList ++ [' ', ' '])).length = 11 := by
    simp [Text.length_hex (by decide) hlt]
  have hcell : Unbroken ([' '] ++ ((Text.hex 8 w.toNat).toList ++ [' ', ' '])) :=
    Unbroken.append (by decide) ((unbroken_hex 8 w.toNat).append (by decide))
  rw [← textColumns_row offset hlength hcell (Holds.word w).unbroken]
  simp [wordLine]

theorem textColumns_byteLine (offset : Nat) (b : UInt8) (rest : String) :
    (Text.lines (byteLine offset b ++ rest).toList).map textColumn =
      Source.dataLine ".byte" 2 b.toNat :: (Text.lines rest.toList).map textColumn := by
  have hlt : b.toNat < capacity (4 * 2) := b.toNat_lt
  have hlength : ([' '] ++ ((Text.hex 2 b.toNat).toList ++ List.replicate 8 ' ')).length = 11 := by
    simp [Text.length_hex (by decide) hlt]
  have hcell : Unbroken ([' '] ++ ((Text.hex 2 b.toNat).toList ++ List.replicate 8 ' ')) :=
    Unbroken.append (by decide) ((unbroken_hex 2 b.toNat).append (by decide))
  rw [← textColumns_row offset hlength hcell (Holds.byte b).unbroken]
  simp [byteLine, Source.dataLine, List.replicate]

theorem textColumns_last_byteLine (offset : Nat) (b : UInt8) :
    (Text.lines (byteLine offset b).toList).map textColumn =
      [Source.dataLine ".byte" 2 b.toNat] := by
  have h := textColumns_byteLine offset b ""
  rwa [String.append_empty] at h

theorem textColumns_listingFrom (offset : Nat) (code : Bytes) :
    (Text.lines (listingFrom offset code).toList).map textColumn = (rows code).map (·.1) := by
  fun_induction listingFrom offset code with
  | case1 offset a b c d rest ih => rw [textColumns_wordLine, ih, rows, List.map_cons]
  | case2 offset a b c =>
    rw [String.append_assoc, textColumns_byteLine, textColumns_byteLine, textColumns_last_byteLine]
    rfl
  | case3 offset a b =>
    rw [textColumns_byteLine, textColumns_last_byteLine]
    rfl
  | case4 offset a =>
    rw [textColumns_last_byteLine]
    rfl
  | case5 => rfl

/-- The last column of a listing, assembled, is the listed code. -/
theorem assemble_listing (localPc : Bool) (code : Bytes) :
    assemble localPc (String.ofList
        (Text.joinLines ((Text.lines (listing code).toList).map textColumn))) =
      .ok ⟨[⟨".text", .text, canonical code, []⟩], []⟩ ∧
    (canonical code).length = code.length := by
  refine ⟨?_, length_canonical code⟩
  rw [listing, textColumns_listingFrom, assemble_rows holds_of_mem_rows, flatMap_rows]

end Dlx
