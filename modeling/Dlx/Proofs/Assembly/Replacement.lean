import Dlx.Proofs.Assembly.Interleaving
import Dlx.Proofs.Assembly.Resolution

/-!
# One piece in place of another

Two units are built by the same operations, except that one of them adds another piece of the same
length. From there on no operation can tell them apart: it sees the names and lengths of sections
and the table of symbols. So when both are complete they differ in that piece only (`Differ`), and
what becomes of it decides whether they are finished alike.

A data value that waits for the end of the unit leaves zeros and a fixup. If the fixup then has a
value, the unit might as well have been given the bytes of that value.

Results:
* `Differ.perform`, `Differ.run`: what is performed on both fails in both or in neither, and they
  still differ in one piece.
* `Differ.allSettle_iff`: which fixups decide whether the one is finished and the other is not.
* `finish_settled_value`: a value that is known at the end, against its bytes.
-/
namespace Dlx.Assembly

/-! ## Two units -/

/-- The two units differ in a piece of the section with index `k`, which starts with `s` in both:
`p` comes next in the one and `q` in the other. -/
structure Differ (k : Nat) (s : OpenSection) (p q : Piece) (a b : Assembly) : Prop where
  length : p.bytes.length = q.bytes.length
  localPc : a.localPc = b.localPc
  current : a.current = b.current
  symbols : a.symbols = b.symbols
  elsewhere : ∀ i, i ≠ k → a.sections[i]? = b.sections[i]?
  piece : ∃ more, a.sections[k]? = some (s.extend (p :: more)) ∧
    b.sections[k]? = some (s.extend (q :: more))

/-- A unit goes on with either of two pieces. -/
theorem differ_extended {a : Assembly} {s : OpenSection} (hs : a.sections[a.current]? = some s)
    {p q : Piece} (hlen : p.bytes.length = q.bytes.length) :
    Differ a.current s p q (a.extended p) (a.extended q) where
  length := hlen
  localPc := rfl
  current := rfl
  symbols := rfl
  elsewhere i hi := by simp [extended, Ne.symm hi]
  piece := ⟨[], by simp [extended, hs], by simp [extended, hs]⟩

namespace Differ

variable {k : Nat} {s : OpenSection} {p q : Piece} {a b : Assembly} (h : Differ k s p q a b)
include h

theorem symm : Differ k s q p b a where
  length := h.length.symm
  localPc := h.localPc.symm
  current := h.current.symm
  symbols := h.symbols.symm
  elsewhere i hi := (h.elsewhere i hi).symm
  piece := by
    obtain ⟨more, ha, hb⟩ := h.piece
    exact ⟨more, hb, ha⟩

/-- What does not depend on the contents of a section is the same in both. -/
theorem map_sections {α : Type} (view : OpenSection → α)
    (hview : ∀ more, view (s.extend (p :: more)) = view (s.extend (q :: more))) (i : Nat) :
    a.sections[i]?.map view = b.sections[i]?.map view := by
  by_cases hi : i = k
  · obtain ⟨more, ha, hb⟩ := h.piece
    rw [hi, ha, hb, Option.map_some, Option.map_some, hview]
  · rw [h.elsewhere i hi]

theorem names : a.sections.map (·.name) = b.sections.map (·.name) := by
  apply List.ext_getElem?
  intro i
  rw [List.getElem?_map, List.getElem?_map]
  exact h.map_sections (·.name) (fun _ => rfl) i

theorem length_sections : a.sections.length = b.sections.length := by
  have hlength := congrArg List.length h.names
  rwa [List.length_map, List.length_map] at hlength

theorem lengths (i : Nat) :
    a.sections[i]?.map (·.data.length) = b.sections[i]?.map (·.data.length) := by
  refine h.map_sections (·.data.length) (fun more => ?_) i
  simp only [OpenSection.extend, List.length_append, length_bytesOf_cons, h.length]

theorem offset : a.offset = b.offset := by
  rw [Assembly.offset, Assembly.offset, ← h.current, h.lengths]

theorem length_lt {n : Nat} (ha : ∀ t ∈ a.sections, t.data.length < n) :
    ∀ t ∈ b.sections, t.data.length < n := by
  intro t ht
  obtain ⟨i, hi⟩ := List.mem_iff_getElem?.mp ht
  have hlength := h.lengths i
  rw [hi, Option.map_some] at hlength
  obtain ⟨u, hu, hsame⟩ := Option.map_eq_some_iff.mp hlength
  rw [← hsame]
  exact ha u (List.mem_of_getElem? hu)

theorem enter (name : String) : Differ k s p q (a.enter name) (b.enter name) := by
  have hfind : a.sections.findIdx? (·.name = name) = b.sections.findIdx? (·.name = name) := by
    have hnames := congrArg (List.findIdx? (· = name)) h.names
    rwa [List.findIdx?_map, List.findIdx?_map] at hnames
  rw [Assembly.enter, Assembly.enter, ← hfind, ← h.length_sections]
  cases a.sections.findIdx? (·.name = name) with
  | some i => exact { h with current := rfl }
  | none =>
    obtain ⟨more, ha, hb⟩ := h.piece
    refine { h with current := rfl, elsewhere := ?_, piece := ?_ }
    · intro i hi
      dsimp only
      rw [List.getElem?_append, List.getElem?_append, h.length_sections, h.elsewhere i hi]
    · exact ⟨more, getElem?_snoc ha _, getElem?_snoc hb _⟩

/-- A further piece comes last in both. -/
theorem extended (r : Piece) (t : SymbolTable) :
    Differ k s p q { a.extended r with symbols := t } { b.extended r with symbols := t } := by
  obtain ⟨more, ha, hb⟩ := h.piece
  refine { h with symbols := rfl, elsewhere := ?_, piece := ?_ }
  · intro i hi
    simp only [Assembly.extended, List.getElem?_modify, h.current, h.elsewhere i hi]
  · by_cases hk : a.current = k
    · refine ⟨more ++ [r], ?_, ?_⟩
      · simp [Assembly.extended, hk, ha, OpenSection.extend_extend]
      · simp [Assembly.extended, ← h.current, hk, hb, OpenSection.extend_extend]
    · refine ⟨more, ?_, ?_⟩
      · simp [Assembly.extended, hk, ha]
      · simp [Assembly.extended, ← h.current, hk, hb]

/-- An operation that succeeds in one of them succeeds in the other. -/
theorem perform {op : Operation} {a' : Assembly} (ha : a.perform op = .ok a') :
    ∃ b', b.perform op = .ok b' ∧ Differ k s p q a' b' := by
  by_cases hop : op.stays
  · obtain ⟨t, henters, rfl⟩ := (perform_eq_ok_iff hop).mp ha
    rw [h.current, h.offset, h.symbols] at henters
    exact ⟨_, (perform_eq_ok_iff hop).mpr ⟨t, henters, rfl⟩, h.extended op.piece t⟩
  · cases op with
    | enter name =>
      cases ha
      exact ⟨_, rfl, h.enter name⟩
    | _ => exact absurd rfl hop

theorem run (ops : List Operation) : Differ k s p q (a.run ops) (b.run ops) := by
  induction ops generalizing a b with
  | nil => exact h
  | cons op rest ih =>
    cases ha : a.perform op with
    | ok a' =>
      obtain ⟨b', hb, h'⟩ := h.perform ha
      rw [run_cons_of_ok ha, run_cons_of_ok hb]
      exact ih h'
    | error e =>
      cases hb : b.perform op with
      | ok b' =>
        obtain ⟨a', ha', -⟩ := h.symm.perform hb
        rw [ha'] at ha
        cases ha
      | error e' =>
        rw [Assembly.run, Assembly.run, ha, hb]
        exact ih h

/-! ## Finishing them -/

theorem settle_eq : settle a.localPc a.symbols = settle b.localPc b.symbols := by
  rw [h.localPc, h.symbols]

theorem settles_iff (home : Nat) (f : Fixup) : a.Settles home f ↔ b.Settles home f := by
  unfold Settles
  rw [h.settle_eq]

theorem settledWrite?_eq : a.settledWrite? = b.settledWrite? := by
  unfold settledWrite?
  rw [h.settle_eq]

theorem deferredReloc?_eq : a.deferredReloc? = b.deferredReloc? := by
  unfold deferredReloc?
  rw [h.settle_eq]

theorem closed_eq : a.closed = b.closed := by
  unfold closed
  rw [h.settledWrite?_eq, h.deferredReloc?_eq]

/-- What settles in the one settles in the other, if the fixups of its own piece do. -/
theorem allSettle (ha : a.AllSettle)
    (hq : ∀ f ∈ q.fixupsAt (UInt32.ofNat s.data.length), b.Settles k f) : b.AllSettle := by
  intro i t ht f hf
  by_cases hi : i = k
  · subst hi
    obtain ⟨more, hsa, hsb⟩ := h.piece
    rw [hsb] at ht
    cases ht
    have hall := ha i _ hsa
    simp only [OpenSection.extend, fixupsFrom, h.length, List.mem_append] at hf hall
    rcases hf with hf | hf | hf
    · exact (h.settles_iff i f).mp (hall f (.inl hf))
    · exact hq f hf
    · exact (h.settles_iff i f).mp (hall f (.inr (.inr hf)))
  · rw [← h.elsewhere i hi] at ht
    exact (h.settles_iff i f).mp (ha i t ht f hf)

theorem settles_piece (ha : a.AllSettle) :
    ∀ f ∈ p.fixupsAt (UInt32.ofNat s.data.length), a.Settles k f := by
  obtain ⟨more, hsa, -⟩ := h.piece
  intro f hf
  exact ha k _ hsa f (List.mem_append_right _ (List.mem_append_left _ hf))

/-- The fixups of the two pieces decide whether all settle in the one and not in the other. -/
theorem allSettle_iff :
    (a.AllSettle ∧ ∀ f ∈ q.fixupsAt (UInt32.ofNat s.data.length), b.Settles k f) ↔
      b.AllSettle ∧ ∀ f ∈ p.fixupsAt (UInt32.ofNat s.data.length), a.Settles k f :=
  ⟨fun ⟨ha, hq⟩ => ⟨h.allSettle ha hq, h.settles_piece ha⟩,
    fun ⟨hb, hp⟩ => ⟨h.symm.allSettle hb hp, h.symm.settles_piece hb⟩⟩

/-- The objects are the same if the section with the piece is. -/
theorem object_eq (hclosed : a.sections[k]?.map (b.closed k) = b.sections[k]?.map (b.closed k)) :
    a.object = b.object := by
  have hsections : a.sections.mapIdx a.closed = b.sections.mapIdx b.closed := by
    rw [h.closed_eq]
    apply List.ext_getElem?
    intro i
    rw [List.getElem?_mapIdx, List.getElem?_mapIdx]
    by_cases hi : i = k
    · rw [hi, hclosed]
    · rw [h.elsewhere i hi]
  unfold object listedSymbols unlistedNames
  rw [hsections, h.symbols]

end Differ

/-! ## A value that is known at the end -/

theorem run_bytes (a : Assembly) (bs : Bytes) (ops : List Operation) :
    a.run (.bytes bs :: ops) = (a.extended (.ofBytes bs)).run ops := by
  rw [← append_piece]
  rfl

theorem fixupsAt_pending (e : Expr) (kind : FixupKind) (offset : UInt32) :
    (Piece.pending e kind).fixupsAt offset = [⟨offset, e, kind⟩] := by
  simp [Piece.fixupsAt, Piece.pending]

section Value

variable {a : Assembly} {size : Nat} {kind : FixupKind} (hkind : FixupKind.data? size = some kind)
  {e : Expr}
include hkind

theorem run_pending (he : e.constant? = none) (ops : List Operation) :
    a.run (.value e size :: ops) = (a.extended (.pending e kind)).run ops := by
  rw [run_cons_of_ok (a.perform_value hkind e), append_piece, Piece.ofValue, hkind, he]

/-- A constant is emitted as its bytes. -/
theorem run_constant {v : Int64} (he : e.constant? = some v) (ops : List Operation) :
    a.run (.value e size :: ops) = a.run (.bytes (leBytes size v.toUInt64.toNat) :: ops) := by
  rw [run_cons_of_ok (a.perform_value hkind e), append_piece, Piece.ofValue, hkind, he, run_bytes]

/-- A unit in which a value waits, against one with bytes in that place. -/
theorem differ_pending (he : e.constant? = none) {s : OpenSection}
    (hs : a.sections[a.current]? = some s) {bs : Bytes} (hlen : bs.length = size)
    (ops : List Operation) :
    Differ a.current s (.pending e kind) (.ofBytes bs) (a.run (.value e size :: ops))
      (a.run (.bytes bs :: ops)) := by
  have hlength : (Piece.pending e kind).bytes.length = (Piece.ofBytes bs).bytes.length := by
    simp [Piece.pending, Piece.ofBytes, hlen, FixupKind.size_of_data? hkind]
  rw [run_pending hkind he, run_bytes]
  exact (differ_extended hs hlength).run ops

/-- A section is closed with the value where the fixup was, if there is one. -/
theorem closed_settled {home : Nat} {s : OpenSection} {more : List Piece}
    (htidy : (s.extend (.pending e kind :: more)).Tidy)
    (hlen : (s.extend (.pending e kind :: more)).data.length < 0x100000000) {v : UInt64}
    (hv : settle a.localPc a.symbols home ⟨UInt32.ofNat s.data.length, e, kind⟩ =
      .ok (.settled v)) :
    a.closed home (s.extend (.pending e kind :: more)) =
      a.closed home (s.extend (.ofBytes (leBytes size v.toNat) :: more)) := by
  let f : Fixup := ⟨UInt32.ofNat s.data.length, e, kind⟩
  have hsize : kind.size = size := FixupKind.size_of_data? hkind
  have hfixups : (s.extend (.pending e kind :: more)).fixups =
      s.fixups ++ f :: fixupsFrom (s.data.length + size) more := by
    simp [OpenSection.extend, fixupsFrom, Piece.fixupsAt, Piece.pending, hsize, f]
  have hfixups' : (s.extend (.ofBytes (leBytes size v.toNat) :: more)).fixups =
      s.fixups ++ fixupsFrom (s.data.length + size) more := by
    simp [OpenSection.extend, fixupsFrom, Piece.fixupsAt, Piece.ofBytes, length_leBytes]
  have hwrite : a.settledWrite? home f = some (f.write v) :=
    settledWrite?_eq_some_iff.mpr ⟨v, hv, rfl⟩
  have hreloc : a.deferredReloc? home f = none := by rw [deferredReloc?, hv]
  -- the value is written first: no other write reaches the place
  have hwithin := @within_settledWrites a home _ htidy
  have hapart := @apart_settledWrites a home _ htidy hlen
  have hfirst : (f.write v).apply (s.extend (.pending e kind :: more)).data =
      (s.extend (.ofBytes (leBytes size v.toNat) :: more)).data := by
    have hbefore : s.data.length < 0x100000000 :=
      Nat.lt_of_le_of_lt (List.prefix_append _ _).length_le hlen
    refine (Write.apply_between ?_ ?_).trans ?_
    · rw [Fixup.offset_write]
      exact UInt32.toNat_ofNat_of_lt' hbefore
    · rw [Fixup.size_write]
      exact List.length_replicate.symm
    · rw [Fixup.new_write_data hkind]
      rfl
  rw [hfixups, List.filterMap_append, List.filterMap_cons_some hwrite] at hwithin hapart
  rw [closed, closed, hfixups, hfixups', List.filterMap_append, List.filterMap_cons_some hwrite,
    writeAll_perm List.perm_middle hwithin hapart, writeAll_cons, hfirst, List.filterMap_append,
    List.filterMap_append, List.filterMap_append, List.filterMap_cons_none hreloc]
  rfl

/-- Of two units, one has the bytes of a value where the other has its fixup. -/
theorem Differ.finish_eq_ok_iff {k : Nat} {s : OpenSection} {v : UInt64} {b : Assembly}
    (h : Differ k s (.pending e kind) (.ofBytes (leBytes size v.toNat)) a b) (ha : a.Sound)
    (hb : b.Sound) (hsize : ∀ t ∈ a.sections, t.data.length < 0x100000000)
    (hv : settle a.localPc a.symbols k ⟨UInt32.ofNat s.data.length, e, kind⟩ = .ok (.settled v))
    {o : Object RelocType} :
    a.finish = .ok o ↔ kind.Fits v.toInt64.toInt ∧ b.finish = .ok o := by
  have hfixup : a.Settles k ⟨UInt32.ofNat s.data.length, e, kind⟩ ↔ kind.Fits v.toInt64.toInt := by
    rw [Settles, hv]
  have hsettle : a.AllSettle ↔ b.AllSettle ∧ kind.Fits v.toInt64.toInt := by
    have hiff := h.allSettle_iff
    rw [fixupsAt_pending, List.forall_mem_singleton, hfixup] at hiff
    rw [← hiff]
    exact (and_iff_left (List.forall_mem_nil _)).symm
  have hobject : a.object = b.object := by
    obtain ⟨more, hsa, hsb⟩ := h.piece
    have hmem := List.mem_of_getElem? hsa
    have hclosed := closed_settled hkind (ha.tidy _ hmem) (hsize _ hmem) hv
    rw [h.closed_eq] at hclosed
    refine h.object_eq ?_
    rw [hsa, hsb, Option.map_some, Option.map_some, hclosed]
  rw [Assembly.finish_eq_ok_iff ha, Assembly.finish_eq_ok_iff hb, hsettle, hobject]
  constructor
  · rintro ⟨⟨hall, hfits⟩, ho⟩
    exact ⟨hfits, hall, ho⟩
  · rintro ⟨hfits, hall, ho⟩
    exact ⟨⟨hall, hfits⟩, ho⟩

end Value

theorem Sound.exists_current {a : Assembly} (ha : a.Sound) :
    ∃ s, a.sections[a.current]? = some s :=
  ⟨_, List.getElem?_eq_getElem ha.current_lt⟩

section Finish

variable {a : Assembly} (ha : a.Sound) {size : Nat} {kind : FixupKind}
  (hkind : FixupKind.data? size = some kind) {e : Expr}
include ha hkind

/-- A unit is finished only if the value that waited for it settles. -/
theorem settles_of_finish (he : e.constant? = none) {after : List Operation} {o : Object RelocType}
    (h : (a.run (.value e size :: after)).finish = .ok o) :
    (a.run (.value e size :: after)).Settles a.current ⟨a.offset, e, kind⟩ := by
  have hsound := (run_reaches a (.value e size :: after)).sound ha
  have hall := ((finish_eq_ok_iff hsound).mp h).1
  obtain ⟨s, hs⟩ := ha.exists_current
  rw [run_pending hkind he] at hall ⊢
  rw [offset_eq hs]
  have hdiffer := (differ_extended hs (p := .pending e kind) rfl).run after
  exact hdiffer.settles_piece hall _ (by rw [fixupsAt_pending, List.mem_singleton])

/-- A value that is known when the unit is complete has the effect of its bytes, if it fits. -/
theorem finish_settled_value (he : e.constant? = none) {after : List Operation}
    (hsize : ∀ s ∈ (a.run (.value e size :: after)).sections, s.data.length < 0x100000000)
    {v : UInt64}
    (hv : settle a.localPc (a.run (.value e size :: after)).symbols a.current
      ⟨a.offset, e, kind⟩ = .ok (.settled v)) {o : Object RelocType} :
    (a.run (.value e size :: after)).finish = .ok o ↔
      kind.Fits v.toInt64.toInt ∧
        (a.run (.bytes (leBytes size v.toNat) :: after)).finish = .ok o := by
  obtain ⟨s, hs⟩ := ha.exists_current
  have hdiffer := differ_pending hkind he hs (length_leBytes size v.toNat) after
  have hreaches := run_reaches a (.value e size :: after)
  have hreaches' := run_reaches a (.bytes (leBytes size v.toNat) :: after)
  rw [← hreaches.localPc_eq, offset_eq hs] at hv
  exact hdiffer.finish_eq_ok_iff hkind (hreaches.sound ha) (hreaches'.sound ha) hsize hv

omit hkind in
/-- Which bytes are emitted does not decide whether a unit can be finished. -/
theorem finish_bytes_ok_iff {bs bs' : Bytes} (hlen : bs.length = bs'.length)
    (after : List Operation) :
    (∃ o, (a.run (.bytes bs :: after)).finish = .ok o) ↔
      ∃ o, (a.run (.bytes bs' :: after)).finish = .ok o := by
  obtain ⟨s, hs⟩ := ha.exists_current
  have hdiffer := (differ_extended hs (p := .ofBytes bs) (q := .ofBytes bs') hlen).run after
  have hreaches := run_reaches a (.bytes bs :: after)
  have hreaches' := run_reaches a (.bytes bs' :: after)
  simp only [run_bytes] at hreaches hreaches' ⊢
  simp only [finish_eq_ok_iff (hreaches.sound ha), finish_eq_ok_iff (hreaches'.sound ha),
    exists_and_left, exists_eq', and_true]
  exact ⟨fun h => hdiffer.allSettle h (List.forall_mem_nil _),
    fun h => hdiffer.symm.allSettle h (List.forall_mem_nil _)⟩

end Finish

end Dlx.Assembly
