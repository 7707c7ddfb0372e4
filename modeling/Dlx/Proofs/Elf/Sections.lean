import Dlx.Proofs.Elf.Narrowing

/-!
# Files with names of any kind

A name in a file ends at its first NUL, and a symbol without a name is not read. So an object whose
names come from elsewhere than a source text can lose symbols on the way through its file. Its
sections and relocations are all there, with their names cut.

Results:
* `readSymbolsFrom_names`: every entry of the symbol table is read, under its cut name.
* `readObject_of_withinLimits`: the sections of a file within the limits of the format.
-/
namespace Dlx.Elf

section

variable {placed : List (Nat × Section UInt32)} {strings : Bytes}

/-- The entry is read under a name, whether or not it becomes a symbol. -/
def ReadAs (placed : List (Nat × Section UInt32)) (strings : Bytes) (r : SymbolRecord)
    (name : String) : Prop :=
  ∀ so, ∃ symbols, readSymbol placed strings so r = .ok ⟨so.names ++ [name], symbols⟩

theorem readSymbolsFrom_of_readAs {l : List SymbolRecord} {names : List String}
    (h : List.Forall₂ (ReadAs placed strings) l names) (so : SymbolsRead) :
    ∃ symbols, readSymbolsFrom placed strings l so = .ok ⟨so.names ++ names, symbols⟩ := by
  induction h generalizing so with
  | nil => exact ⟨so.symbols, by simp [readSymbolsFrom]⟩
  | @cons r name l names hr _ ih =>
    obtain ⟨symbols, hread⟩ := hr so
    obtain ⟨all, hall⟩ := ih ⟨so.names ++ [name], symbols⟩
    refine ⟨all, ?_⟩
    rw [List.append_assoc, List.singleton_append] at hall
    rw [readSymbolsFrom, hread]
    exact hall

theorem readAs_sectionSymbol {sections : List (Section UInt32)} {i : Nat} {s : Section UInt32}
    (hi : sections[i]? = some s) :
    ReadAs (numbered 1 sections) strings (sectionSymbol i) s.name :=
  fun _ => ⟨_, readSymbol_sectionSymbol hi⟩

theorem readAs_symbolRecord {r : SymbolRecord} {s : Symbol} (h : Enters strings r s) :
    ReadAs placed strings r (untilNul s.name) := by
  intro so
  obtain ⟨⟨offset, rfl⟩, hname⟩ := h
  have hkind : ¬ (symbolRecord s offset).info % 16 = 3 := by
    simp only [symbolRecord]
    split <;> decide
  rw [readSymbol, if_neg hkind, hname]
  simp only [Except.mapError_ok, bind, Except.bind]
  split
  · exact ⟨_, rfl⟩
  · exact ⟨_, rfl⟩

end

theorem readSymbolsFrom_names (o : Object RelocType) :
    ∃ symbols, readSymbolsFrom (numbered 1 (o.sections.map bare)) (stringsPart o).content
      (symbolRecords o) ⟨[], []⟩ = .ok ⟨entryNames o, symbols⟩ := by
  have hsections : List.Forall₂
      (ReadAs (numbered 1 (o.sections.map bare)) (stringsPart o).content)
      ((List.range o.sections.length).map sectionSymbol) (o.sections.map (untilNul ·.name)) := by
    rw [List.forall₂_map_left_iff, List.forall₂_map_right_iff, List.forall₂_iff_get]
    refine ⟨List.length_range, ?_⟩
    intro i hi hlt
    simp only [List.get_eq_getElem, List.getElem_range]
    exact @readAs_sectionSymbol _ _ i (bare o.sections[i]) (by simp [hlt])
  have hsymbols : List.Forall₂
      (ReadAs (numbered 1 (o.sections.map bare)) (stringsPart o).content)
      ((orderedSymbols o).zipWith symbolRecord (nameOffsets 1 ((orderedSymbols o).map (·.name))))
      ((orderedSymbols o).map (untilNul ·.name)) := by
    rw [List.forall₂_map_right_iff]
    exact (enters_orderedSymbols o).imp fun _ _ => readAs_symbolRecord
  have hnull : ReadAs (numbered 1 (o.sections.map bare)) (stringsPart o).content ⟨0, 0, 0, 0⟩ "" :=
    fun _ => ⟨_, readSymbol_null _ (nameAt_stringTable_zero _)⟩
  exact readSymbolsFrom_of_readAs (List.rel_append (.cons hnull hsections) hsymbols) ⟨[], []⟩

/-- A file within the limits is read, with every section of the object. -/
theorem readObject_of_withinLimits {o : Object RelocType}
    (hhomes : ∀ s ∈ o.symbols, ∀ i, s.home = some i → i < o.sections.length)
    (hlisted : ∀ s ∈ o.sections, ∀ r ∈ s.relocs, r.symbol ∈ o.symbols.map (·.name))
    (hl : WithinLimits o) :
    ∃ symbols, readObject (writeObject o) = .ok ⟨o.narrowed.sections.map filed, symbols⟩ := by
  obtain ⟨symbols, hsymbols⟩ := readSymbolsFrom_names o.narrowed
  have hread := (sized_narrowed hhomes hlisted hl).readObject_eq_ok hsymbols
  exact ⟨symbols, writeObject_narrowed o ▸ hread⟩

end Dlx.Elf
