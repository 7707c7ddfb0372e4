import Dlx.Link.Linker
import Dlx.Proofs.Write
import Mathlib.Data.List.Nodup

/-!
# Where the sections lie

The sections of all objects are placed one after the other, so each has its own bytes of the image.

Results:
* `layout_inOrder`: no section starts before the one in front of it ends.
* `placement?_eq_some_iff`: the placement of a section is that of the one placed section with its
  indices (`key_injOn`), and every section has one (`exists_placement`).
* `slice?_layout_bytes`: the image holds the data of a section at its placement.
* `writeAll_layout_bytes`: writing into the sections through the image is writing into each of them
  and laying them out.
-/
namespace Dlx.Linker

/-! ## Sections in order -/

/-- The offset behind a placed section. -/
def Placed.stop (p : Placed) : Nat := p.offset + p.sect.body.data.length

/-- Sections one after the other, none before `offset`. -/
def InOrder (offset : Nat) : List Placed → Prop
  | [] => True
  | p :: rest => offset ≤ p.offset ∧ InOrder p.stop rest

theorem inOrder_placeFrom (offset : Nat) (ss : List SectionAt) :
    InOrder offset (placeFrom offset ss) := by
  induction ss generalizing offset with
  | nil => trivial
  | cons s ss ih => exact ⟨Nat.le_add_right _ _, ih _⟩

theorem inOrder_append {offset : Nat} {ps qs : List Placed} :
    InOrder offset (ps ++ qs) ↔ InOrder offset ps ∧ InOrder (endFrom offset ps) qs := by
  induction ps generalizing offset with
  | nil => simp [InOrder, endFrom]
  | cons p ps ih => simp only [List.cons_append, InOrder, ih, endFrom, and_assoc]; rfl

theorem bytesFrom_append (offset : Nat) (ps qs : List Placed) :
    bytesFrom offset (ps ++ qs) = bytesFrom offset ps ++ bytesFrom (endFrom offset ps) qs := by
  induction ps generalizing offset with
  | nil => rfl
  | cons p ps ih => simp only [List.cons_append, bytesFrom, endFrom, ih, List.append_assoc]

theorem le_endFrom {offset : Nat} {ps : List Placed} (h : InOrder offset ps) :
    offset ≤ endFrom offset ps := by
  induction ps generalizing offset with
  | nil => exact Nat.le_refl _
  | cons p ps ih =>
    have := ih h.2
    have := h.1
    simp only [endFrom, Placed.stop] at *
    omega

theorem length_bytesFrom {offset : Nat} {ps : List Placed} (h : InOrder offset ps) :
    offset + (bytesFrom offset ps).length = endFrom offset ps := by
  induction ps generalizing offset with
  | nil => rfl
  | cons p ps ih =>
    have := ih h.2
    have := h.1
    simp only [bytesFrom, endFrom, Placed.stop, List.length_append, List.length_replicate] at *
    omega

/-- Sections in order do not overlap. -/
theorem InOrder.pairwise {offset : Nat} {ps : List Placed} (h : InOrder offset ps) :
    ps.Pairwise (fun p q => p.stop ≤ q.offset) ∧ ∀ p ∈ ps, offset ≤ p.offset := by
  induction ps generalizing offset with
  | nil => simp
  | cons p ps ih =>
    obtain ⟨hp, hrest⟩ := ih h.2
    refine ⟨List.pairwise_cons.mpr ⟨hrest, hp⟩, ?_⟩
    intro q hq
    rcases List.mem_cons.mp hq with rfl | hq
    · exact h.1
    · have := hrest q hq
      have := h.1
      simp only [Placed.stop] at *
      omega

theorem stop_le_endFrom {offset : Nat} {ps : List Placed} (h : InOrder offset ps) {p : Placed}
    (hp : p ∈ ps) : p.stop ≤ endFrom offset ps := by
  induction ps generalizing offset with
  | nil => cases hp
  | cons q ps ih =>
    rcases List.mem_cons.mp hp with rfl | hp
    · exact le_endFrom h.2
    · exact ih h.2 hp

theorem layout_inOrder (objects : List (Object UInt32)) : InOrder 0 (layout objects).all :=
  inOrder_append.mpr ⟨inOrder_placeFrom _ _, inOrder_placeFrom _ _⟩

theorem stop_le_length {objects : List (Object UInt32)} {p : Placed}
    (hp : p ∈ (layout objects).all) : p.stop ≤ (layout objects).bytes.length := by
  have h := layout_inOrder objects
  have hl := length_bytesFrom h
  rw [ImageLayout.bytes]
  have := stop_le_endFrom h hp
  omega

/-! ## Every section is placed once -/

theorem mem_allSections {objects : List (Object UInt32)} {s : SectionAt} :
    s ∈ allSections objects ↔
      ∃ o, objects[s.object]? = some o ∧ o.sections[s.index]? = some s.body := by
  simp only [allSections, sectionsOf, List.mem_flatMap, List.mem_map, Prod.exists,
    List.mk_mem_zipIdx_iff_getElem?]
  constructor
  · rintro ⟨o, k, hk, b, i, hi, rfl⟩
    exact ⟨o, hk, hi⟩
  · rintro ⟨o, ho, hs⟩
    exact ⟨o, s.object, ho, s.body, s.index, hs, rfl⟩

theorem map_sect_placeFrom (offset : Nat) (ss : List SectionAt) :
    (placeFrom offset ss).map (·.sect) = ss := by
  induction ss generalizing offset with
  | nil => rfl
  | cons s ss ih => simp [placeFrom, ih]

theorem sects_perm (objects : List (Object UInt32)) :
    ((layout objects).all.map (·.sect)).Perm (allSections objects) := by
  have hd : (allSections objects).filter (fun s => decide (s.body.kind = .data)) =
      (allSections objects).filter (fun s => !decide (s.body.kind = .text)) := by
    congr 1
    funext s
    cases s.body.kind <;> rfl
  simp only [ImageLayout.all, layout, List.map_append, map_sect_placeFrom, hd]
  exact List.filter_append_perm _ _

/-- The two indices of a section. -/
def SectionAt.key (s : SectionAt) : Nat × Nat := (s.object, s.index)

theorem keys_sectionsOf (k : Nat) (o : Object UInt32) :
    (sectionsOf k o).map SectionAt.key = (List.range o.sections.length).map (k, ·) := by
  simp only [sectionsOf, List.map_map, List.range_eq_range', ← List.zipIdx_map_snd 0 o.sections]
  rfl

theorem keys_nodup (objects : List (Object UInt32)) :
    ((allSections objects).map SectionAt.key).Nodup := by
  have h : ∀ k, ((objects.zipIdx k).flatMap fun x => sectionsOf x.2 x.1).map SectionAt.key |>.Nodup := by
    induction objects with
    | nil => simp
    | cons o rest ih =>
      intro k
      simp only [List.zipIdx_cons, List.flatMap_cons, List.map_append, keys_sectionsOf]
      refine List.nodup_append.mpr ⟨?_, ih (k + 1), ?_⟩
      · exact List.Pairwise.map _ (fun a b hne => by simpa using hne) List.nodup_range
      · intro a ha b hb
        obtain ⟨i, -, rfl⟩ := List.mem_map.mp ha
        obtain ⟨s, hs, rfl⟩ := List.mem_map.mp hb
        obtain ⟨⟨o', k'⟩, hk', hs⟩ := List.mem_flatMap.mp hs
        obtain ⟨⟨b, i'⟩, -, rfl⟩ := List.mem_map.mp hs
        have := List.le_snd_of_mem_zipIdx hk'
        simp only [SectionAt.key, ne_eq, Prod.mk.injEq, not_and]
        intro h
        omega
  exact h 0

theorem layout_keys_nodup (objects : List (Object UInt32)) :
    ((layout objects).all.map (·.sect.key)).Nodup := by
  have h := ((sects_perm objects).map SectionAt.key).nodup_iff.mpr (keys_nodup objects)
  rwa [List.map_map] at h

theorem key_injOn {objects : List (Object UInt32)} {p q : Placed} (hp : p ∈ (layout objects).all)
    (hq : q ∈ (layout objects).all) (h : p.sect.key = q.sect.key) : p = q :=
  List.inj_on_of_nodup_map (layout_keys_nodup objects) hp hq h

/-- The placement of a placed section in an image loaded at `base`. -/
def Placed.placement (p : Placed) (base : UInt32) : Placement :=
  ⟨base + UInt32.ofNat p.offset, p.offset, p.sect.body.data.length⟩

theorem placement?_eq_some_iff {objects : List (Object UInt32)} {base : UInt32} {k i : Nat}
    {pl : Placement} :
    (layout objects).placement? base k i = some pl ↔
      ∃ p ∈ (layout objects).all, p.sect.key = (k, i) ∧ p.placement base = pl := by
  unfold ImageLayout.placement?
  constructor
  · intro h
    obtain ⟨p, hp, rfl⟩ := Option.map_eq_some_iff.mp h
    have hk := List.find?_some hp
    refine ⟨p, List.mem_of_find?_eq_some hp, ?_, rfl⟩
    simpa [SectionAt.key] using hk
  · rintro ⟨p, hp, hk, rfl⟩
    cases hf : (layout objects).all.find? fun p => p.sect.object = k && p.sect.index = i with
    | none =>
      have := List.find?_eq_none.mp hf p hp
      simp only [SectionAt.key, Prod.mk.injEq] at hk
      simp [hk] at this
    | some q =>
      have hq := List.find?_some hf
      have hqk : q.sect.key = (k, i) := by simpa [SectionAt.key] using hq
      rw [key_injOn hp (List.mem_of_find?_eq_some hf) (hk.trans hqk.symm)]
      rfl

theorem placement?_of_mem {objects : List (Object UInt32)} {p : Placed}
    (hp : p ∈ (layout objects).all) (base : UInt32) :
    (layout objects).placement? base p.sect.object p.sect.index = some (p.placement base) :=
  placement?_eq_some_iff.mpr ⟨p, hp, rfl, rfl⟩

theorem placement?_bounds {objects : List (Object UInt32)} {base : UInt32} {k i : Nat}
    {p : Placement} (hp : (layout objects).placement? base k i = some p)
    (hsize : base.toNat + (layout objects).bytes.length < 0x100000000) :
    p.address.toNat = base.toNat + p.offset ∧ p.offset + p.length ≤ (layout objects).bytes.length := by
  obtain ⟨q, hq, -, rfl⟩ := placement?_eq_some_iff.mp hp
  have hstop := stop_le_length hq
  simp only [Placed.placement, Placed.stop] at hstop ⊢
  refine ⟨?_, hstop⟩
  rw [UInt32.toNat_add, UInt32.toNat_ofNat']
  omega

theorem mem_layout {objects : List (Object UInt32)} {s : SectionAt} :
    (∃ p ∈ (layout objects).all, p.sect = s) ↔ s ∈ allSections objects := by
  rw [← (sects_perm objects).mem_iff, List.mem_map]

theorem exists_placed {objects : List (Object UInt32)} {k i : Nat} {o : Object UInt32}
    {s : Section UInt32} (ho : objects[k]? = some o) (hs : o.sections[i]? = some s) :
    ∃ p ∈ (layout objects).all, p.sect = ⟨k, i, s⟩ :=
  mem_layout.mpr (mem_allSections.mpr ⟨o, ho, hs⟩)

/-! ## The bytes of a section -/

theorem bytesFrom_split {offset : Nat} {ps qs : List Placed} {p : Placed}
    (h : InOrder offset (ps ++ p :: qs)) :
    ∃ pre, offset + pre.length = p.offset ∧
      bytesFrom offset (ps ++ p :: qs) = pre ++ p.sect.body.data ++ bytesFrom p.stop qs := by
  obtain ⟨hps, hle, -⟩ := inOrder_append.mp h
  have hl := length_bytesFrom hps
  refine ⟨bytesFrom offset ps ++ List.replicate (p.offset - endFrom offset ps) 0, ?_, ?_⟩
  · simp only [List.length_append, List.length_replicate]; omega
  · rw [bytesFrom_append, bytesFrom, Placed.stop]
    simp only [List.append_assoc]

theorem slice?_layout_bytes {objects : List (Object UInt32)} {p : Placed}
    (hp : p ∈ (layout objects).all) :
    slice? (layout objects).bytes p.offset p.sect.body.data.length = some p.sect.body.data := by
  obtain ⟨ps, qs, hsplit⟩ := List.append_of_mem hp
  have hord := layout_inOrder objects
  rw [hsplit] at hord
  obtain ⟨pre, hpre, hbytes⟩ := bytesFrom_split hord
  have hoff : p.offset = pre.length + 0 := by omega
  rw [ImageLayout.bytes, hsplit, hbytes, hoff, slice?_middle _ _ (by omega)]
  simp [slice?]

/-- The section with other data. -/
def Placed.withData (p : Placed) (data : Bytes) : Placed :=
  { p with sect := { p.sect with body := { p.sect.body with data := data } } }

/-- Writes into sections, through the bytes of the sections laid out. The bytes `pre` in front give
the offsets their meaning. -/
theorem writeAll_bytesFrom {offset : Nat} {ps : List Placed} (h : InOrder offset ps)
    {W : SectionAt → List Write}
    (hW : ∀ p ∈ ps, ∀ w ∈ W p.sect, w.Within p.sect.body.data.length) (pre : Bytes)
    (hpre : pre.length = offset) :
    writeAll (pre ++ bytesFrom offset ps) (ps.flatMap fun p => (W p.sect).map (·.shift p.offset)) =
      pre ++ bytesFrom offset (ps.map fun p => p.withData (writeAll p.sect.body.data (W p.sect))) := by
  induction ps generalizing offset pre with
  | nil => rfl
  | cons p ps ih =>
    obtain ⟨hle, hrest⟩ := h
    have hWp := hW p List.mem_cons_self
    have hlen := length_writeAll hWp
    -- The bytes up to the section, so that its writes are writes into the middle.
    have hz : (pre ++ List.replicate (p.offset - offset) (0 : UInt8)).length = p.offset := by
      simp; omega
    have hmid := writeAll_middle (pre ++ List.replicate (p.offset - offset) (0 : UInt8))
      (bytesFrom p.stop ps) hWp
    have hstop : (pre ++ List.replicate (p.offset - offset) (0 : UInt8) ++
        writeAll p.sect.body.data (W p.sect)).length = p.stop := by
      rw [List.length_append, hz, hlen]; rfl
    have hih := ih hrest (fun q hq => hW q (List.mem_cons_of_mem _ hq)) _ hstop
    rw [hz] at hmid
    simp only [List.flatMap_cons, List.map_cons, bytesFrom, writeAll_append, Placed.withData,
      Placed.stop, List.append_assoc, hlen] at *
    rw [hmid, hih]

/-! ## Objects of the same shape -/

/-- A change of the sections of objects, which may depend on the indices. -/
def mapSections (f : SectionAt → Section UInt32) (objects : List (Object UInt32)) :
    List (Object UInt32) :=
  objects.mapIdx fun k o => { o with sections := o.sections.mapIdx fun i s => f ⟨k, i, s⟩ }

def SectionAt.map (f : SectionAt → Section UInt32) (s : SectionAt) : SectionAt :=
  { s with body := f s }

def Placed.map (f : SectionAt → Section UInt32) (p : Placed) : Placed :=
  { p with sect := p.sect.map f }

theorem zipIdx_mapIdx {α β : Type} (g : Nat → α → β) (l : List α) :
    (l.mapIdx g).zipIdx = l.zipIdx.map fun x => (g x.2 x.1, x.2) := by
  apply List.ext_getElem?
  intro j
  simp only [List.getElem?_zipIdx, List.getElem?_mapIdx, List.getElem?_map, Option.map_map]
  cases l[j]? <;> simp

theorem allSections_mapSections (f : SectionAt → Section UInt32) (objects : List (Object UInt32)) :
    allSections (mapSections f objects) = (allSections objects).map (SectionAt.map f) := by
  simp only [allSections, mapSections, sectionsOf, zipIdx_mapIdx, List.map_flatMap, List.map_map,
    List.flatMap_map]
  rfl

section
variable {f : SectionAt → Section UInt32}

theorem placeFrom_map {ss : List SectionAt}
    (h : ∀ s ∈ ss, (f s).data.length = s.body.data.length) (offset : Nat) :
    placeFrom offset (ss.map (SectionAt.map f)) = (placeFrom offset ss).map (Placed.map f) := by
  induction ss generalizing offset with
  | nil => rfl
  | cons s ss ih =>
    have hs := h s List.mem_cons_self
    have ih := ih fun s' hs' => h s' (List.mem_cons_of_mem _ hs')
    simp [placeFrom, Placed.map, SectionAt.map, hs, ih]

theorem endFrom_map {ps : List Placed}
    (h : ∀ p ∈ ps, (f p.sect).data.length = p.sect.body.data.length) (offset : Nat) :
    endFrom offset (ps.map (Placed.map f)) = endFrom offset ps := by
  induction ps generalizing offset with
  | nil => rfl
  | cons p ps ih =>
    have hp := h p List.mem_cons_self
    have ih := ih fun q hq => h q (List.mem_cons_of_mem _ hq)
    simp [endFrom, Placed.map, SectionAt.map, hp, ih]

variable {objects : List (Object UInt32)}
  (hkind : ∀ s ∈ allSections objects, (f s).kind = s.body.kind)
  (hlen : ∀ s ∈ allSections objects, (f s).data.length = s.body.data.length)

include hlen in
theorem length_of_mem_layout {p : Placed} (hp : p ∈ (layout objects).all) :
    (f p.sect).data.length = p.sect.body.data.length :=
  hlen p.sect (mem_layout.mp ⟨p, hp, rfl⟩)

include hkind hlen in
/-- The layout depends only on the kinds and lengths of the sections. -/
theorem layout_mapSections :
    layout (mapSections f objects) =
      ⟨(layout objects).text.map (Placed.map f), (layout objects).data.map (Placed.map f)⟩ := by
  have hfilter : ∀ kind : SectionKind,
      ((allSections objects).map (SectionAt.map f)).filter (fun s => decide (s.body.kind = kind)) =
        ((allSections objects).filter fun s => decide (s.body.kind = kind)).map (SectionAt.map f) := by
    intro kind
    rw [List.filter_map]
    congr 1
    apply List.filter_congr
    intro s hs
    simp [SectionAt.map, hkind s hs]
  have hplace : ∀ (kind : SectionKind) (offset : Nat),
      placeFrom offset (((allSections objects).filter fun s => decide (s.body.kind = kind)).map
        (SectionAt.map f)) =
      (placeFrom offset ((allSections objects).filter fun s => decide (s.body.kind = kind))).map
        (Placed.map f) :=
    fun kind offset => placeFrom_map (fun s hs => hlen s (List.mem_of_mem_filter hs)) offset
  have hend : endFrom 0 ((layout objects).text.map (Placed.map f)) =
      endFrom 0 (layout objects).text :=
    endFrom_map (fun p hp => length_of_mem_layout hlen (List.mem_append_left _ hp)) 0
  simp only [layout] at hend
  simp only [layout, allSections_mapSections, hfilter, hplace, hend]

include hkind hlen in
theorem textSize_mapSections :
    (layout (mapSections f objects)).textSize = (layout objects).textSize := by
  rw [layout_mapSections hkind hlen]
  exact endFrom_map (fun p hp => length_of_mem_layout hlen (List.mem_append_left _ hp)) 0

include hkind hlen in
theorem length_bytes_mapSections :
    (layout (mapSections f objects)).bytes.length = (layout objects).bytes.length := by
  have h := length_bytesFrom (layout_inOrder objects)
  have h' := length_bytesFrom (layout_inOrder (mapSections f objects))
  have hall : (layout (mapSections f objects)).all = (layout objects).all.map (Placed.map f) := by
    rw [layout_mapSections hkind hlen]
    exact List.map_append.symm
  rw [hall, endFrom_map fun p hp => length_of_mem_layout hlen hp, ← h, ← hall] at h'
  exact Nat.add_left_cancel h'

include hkind hlen in
theorem placement?_mapSections (base : UInt32) (k i : Nat) :
    (layout (mapSections f objects)).placement? base k i =
      (layout objects).placement? base k i := by
  rw [layout_mapSections hkind hlen]
  simp only [ImageLayout.placement?, ImageLayout.all, ← List.map_append, List.find?_map,
    Option.map_map]
  have hkey : ((fun p : Placed => decide (p.sect.object = k) && decide (p.sect.index = i)) ∘
      Placed.map f) = fun p => decide (p.sect.object = k) && decide (p.sect.index = i) := rfl
  rw [hkey]
  apply Option.map_congr
  intro p hp
  have := length_of_mem_layout hlen (List.mem_of_find?_eq_some hp)
  simp [Placed.map, SectionAt.map, this]

end

/-! ## What the layout depends on -/

theorem layout_congr {objects objects' : List (Object UInt32)}
    (h : objects.map (·.sections) = objects'.map (·.sections)) :
    layout objects = layout objects' := by
  have hall : ∀ objects : List (Object UInt32), allSections objects =
      (objects.map (·.sections)).zipIdx.flatMap fun x =>
        x.1.zipIdx.map fun y => ⟨x.2, y.2, y.1⟩ := by
    intro objects
    rw [List.zipIdx_map, List.flatMap_map]
    rfl
  unfold layout
  rw [hall objects, h, ← hall objects']

theorem sections_mapSections (g : Section UInt32 → Section UInt32) (objects : List (Object UInt32)) :
    (mapSections (fun s => g s.body) objects).map (·.sections) =
      objects.map fun o => o.sections.map g := by
  apply List.ext_getElem?
  intro k
  simp only [mapSections, List.getElem?_map, List.getElem?_mapIdx, Option.map_map]
  cases objects[k]? with
  | none => rfl
  | some o =>
    simp only [Option.map_some, Function.comp_apply, Option.some.injEq]
    apply List.ext_getElem?
    intro i
    simp [List.getElem?_mapIdx]

/-- The kinds and lengths of the sections of objects. -/
def shape (objects : List (Object UInt32)) : List (List (SectionKind × Nat)) :=
  objects.map fun o => o.sections.map fun s => (s.kind, s.data.length)

/-- The kinds and the data of the sections of objects. -/
def contents (objects : List (Object UInt32)) : List (List (SectionKind × Bytes)) :=
  objects.map fun o => o.sections.map fun s => (s.kind, s.data)

/-- A section of which only the kind and the length are kept. -/
def outline (s : Section UInt32) : Section UInt32 :=
  ⟨"", s.kind, List.replicate s.data.length 0, []⟩

/-- A section of which only the kind and the data are kept. -/
def stripped (s : Section UInt32) : Section UInt32 := ⟨"", s.kind, s.data, []⟩

theorem length_outline (s : Section UInt32) : (outline s).data.length = s.data.length :=
  List.length_replicate

theorem layout_outline_congr {objects objects' : List (Object UInt32)}
    (h : shape objects = shape objects') :
    layout (mapSections (fun s => outline s.body) objects) =
      layout (mapSections (fun s => outline s.body) objects') := by
  apply layout_congr
  have h' := congrArg (List.map (List.map fun x : SectionKind × Nat =>
    (⟨"", x.1, List.replicate x.2 0, []⟩ : Section UInt32))) h
  simp only [shape, List.map_map, Function.comp_def] at h'
  rw [sections_mapSections, sections_mapSections]
  exact h'

theorem placement?_congr {objects objects' : List (Object UInt32)}
    (h : shape objects = shape objects') (base : UInt32) (k i : Nat) :
    (layout objects).placement? base k i = (layout objects').placement? base k i := by
  have hout : ∀ objects, (layout (mapSections (fun s => outline s.body) objects)).placement? base k i =
      (layout objects).placement? base k i := fun _ =>
    placement?_mapSections (f := fun s => outline s.body) (fun _ _ => rfl)
      (fun s _ => length_outline s.body) base k i
  rw [← hout objects, layout_outline_congr h, hout objects']

theorem textSize_congr {objects objects' : List (Object UInt32)}
    (h : shape objects = shape objects') :
    (layout objects).textSize = (layout objects').textSize := by
  have hout : ∀ objects, (layout (mapSections (fun s => outline s.body) objects)).textSize =
      (layout objects).textSize := fun _ =>
    textSize_mapSections (f := fun s => outline s.body) (fun _ _ => rfl)
      (fun s _ => length_outline s.body)
  rw [← hout objects, layout_outline_congr h, hout objects']

theorem length_bytes_congr {objects objects' : List (Object UInt32)}
    (h : shape objects = shape objects') :
    (layout objects).bytes.length = (layout objects').bytes.length := by
  have hout : ∀ objects, (layout (mapSections (fun s => outline s.body) objects)).bytes.length =
      (layout objects).bytes.length := fun _ =>
    length_bytes_mapSections (f := fun s => outline s.body) (fun _ _ => rfl)
      (fun s _ => length_outline s.body)
  rw [← hout objects, layout_outline_congr h, hout objects']

theorem bytesFrom_map {f : SectionAt → Section UInt32} {ps : List Placed}
    (h : ∀ p ∈ ps, (f p.sect).data = p.sect.body.data) (offset : Nat) :
    bytesFrom offset (ps.map (Placed.map f)) = bytesFrom offset ps := by
  induction ps generalizing offset with
  | nil => rfl
  | cons p ps ih =>
    obtain ⟨hp, hps⟩ := List.forall_mem_cons.mp h
    simp [bytesFrom, Placed.map, SectionAt.map, hp, ih hps]

theorem bytes_congr {objects objects' : List (Object UInt32)}
    (h : contents objects = contents objects') :
    (layout objects).bytes = (layout objects').bytes := by
  have hstrip : ∀ objects : List (Object UInt32),
      (layout (mapSections (fun s => stripped s.body) objects)).bytes = (layout objects).bytes := by
    intro objects
    rw [layout_mapSections (f := fun s => stripped s.body) (fun _ _ => rfl) (fun _ _ => rfl)]
    simp only [ImageLayout.bytes, ImageLayout.all, ← List.map_append]
    exact bytesFrom_map (f := fun s => stripped s.body) (fun _ _ => rfl) 0
  have h' := congrArg (List.map (List.map fun x : SectionKind × Bytes =>
    (⟨"", x.1, x.2, []⟩ : Section UInt32))) h
  simp only [contents, List.map_map, Function.comp_def] at h'
  rw [← hstrip objects, ← hstrip objects', layout_congr]
  rw [sections_mapSections, sections_mapSections]
  exact h'

/-- Writing into the sections through the image is writing into each of them. The writes of a
section may overlap; those of different sections cannot. -/
theorem writeAll_layout_bytes {objects : List (Object UInt32)} {W : SectionAt → List Write}
    {start : SectionAt → Nat} (hstart : ∀ p ∈ (layout objects).all, start p.sect = p.offset)
    (hW : ∀ s ∈ allSections objects, ∀ w ∈ W s, w.Within s.body.data.length) :
    writeAll (layout objects).bytes
        ((allSections objects).flatMap fun s => (W s).map (·.shift (start s))) =
      (layout (mapSections (fun s => { s.body with data := writeAll s.body.data (W s) })
        objects)).bytes := by
  have hW' : ∀ p ∈ (layout objects).all, ∀ w ∈ W p.sect, w.Within p.sect.body.data.length :=
    fun p hp => hW p.sect (mem_layout.mp ⟨p, hp, rfl⟩)
  have hflat : ((layout objects).all.map (·.sect)).flatMap
        (fun s => (W s).map (·.shift (start s))) =
      (layout objects).all.flatMap fun p => (W p.sect).map (·.shift p.offset) := by
    rw [List.flatMap_map]
    apply List.flatMap_congr
    intro p hp
    rw [hstart p hp]
  rw [← writeAll_flatMap_perm (sects_perm objects), hflat]
  · have h := writeAll_bytesFrom (layout_inOrder objects) hW' [] rfl
    simp only [List.nil_append] at h
    have hmap := @layout_mapSections
      (fun s => { s.body with data := writeAll s.body.data (W s) }) objects (fun _ _ => rfl)
      fun s hs => length_writeAll (hW s hs)
    rw [ImageLayout.bytes, h, hmap]
    simp only [ImageLayout.bytes, ImageLayout.all, ← List.map_append]
    rfl
  · -- Each write lies in its section, so in the image.
    intro s hs w hw
    obtain ⟨p, hp, rfl⟩ := List.mem_map.mp hs
    obtain ⟨v, hv, rfl⟩ := List.mem_map.mp hw
    have hstop := stop_le_length hp
    have hin := hW' p hp v hv
    simp only [Write.Within, Write.shift, hstart p hp, Placed.stop] at *
    omega
  · -- Sections in order do not overlap.
    rw [List.pairwise_map]
    refine List.Pairwise.imp_of_mem ?_ (layout_inOrder objects).pairwise.1
    intro p q hp hq hpq w hw w' hw'
    obtain ⟨v, hv, rfl⟩ := List.mem_map.mp hw
    obtain ⟨v', -, rfl⟩ := List.mem_map.mp hw'
    have hin := hW' p hp v hv
    left
    simp only [Write.Within, Write.shift, hstart p hp, hstart q hq, Placed.stop] at *
    omega

end Dlx.Linker
