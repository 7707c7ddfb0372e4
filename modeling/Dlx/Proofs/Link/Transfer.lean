import Dlx.Proofs.Fields
import Dlx.Proofs.Link.Completion

/-!
# Linked control transfers

A branch, call or jump to a symbol is encoded with an empty field and a fixup. Wherever its section
is placed and whenever the fixup is settled, the word in the image decodes to the instruction as it
was written, with the distance to its symbol, or the symbol's address, in the field.

Results:
* `slice?_completed`: a fixup's place in the image holds what its value makes of the encoded bytes.
* `linked_transfer_reaches_target`: the transfer in the image, for every run of operations, every
  set of units and every link.
-/
namespace Dlx

namespace Linker

section
variable {units : List Assembly} {absolutes : NameMap UInt32} (hs : ∀ a ∈ units, a.Sound)
  {base : UInt32}
include hs

theorem shape_completed :
    shape (completed units absolutes base) = shape (ofUnits units absolutes).objects := by
  apply List.ext_getElem?
  intro k
  simp only [shape, completed, List.getElem?_map, List.getElem?_mapIdx, Option.map_map, ofUnits]
  cases ha : units[k]? with
  | none => rfl
  | some a =>
    simp only [Option.map_some, Function.comp_apply, Option.some.injEq]
    apply List.ext_getElem?
    intro i
    simp only [Assembly.bare, List.getElem?_map, List.getElem?_mapIdx, Option.map_map]
    cases hsec : a.sections[i]? with
    | none => rfl
    | some s =>
      have htidy := (hs a (List.mem_of_getElem? ha)).tidy s (List.mem_of_getElem? hsec)
      simp only [Option.map_some, Function.comp_apply, Option.some.injEq]
      split
      · exact Prod.ext rfl (Assembly.length_completedData htidy)
      · rfl

/-- The place of a section holds its completed data. -/
theorem slice?_completed_section {k i : Nat} {a : Assembly} {s : OpenSection}
    (ha : units[k]? = some a) (hsec : a.sections[i]? = some s) {p : Placement}
    (hp : (ofUnits units absolutes).place base k i = some p) :
    slice? (layout (completed units absolutes base)).bytes p.offset s.data.length =
      some (a.completedData i p.address ((ofUnits units absolutes).address? base k) s) := by
  let lookup := (ofUnits units absolutes).address? base k
  have ho : ∃ o, (completed units absolutes base)[k]? = some o ∧
      o.sections[i]? = some ⟨s.name, s.kind, a.completedData i p.address lookup s, []⟩ := by
    refine ⟨_, by simp only [completed, List.getElem?_mapIdx, ha, Option.map_some]; rfl, ?_⟩
    simp only [List.getElem?_mapIdx, hsec, Option.map_some, hp, lookup]
  obtain ⟨o, ho, hos⟩ := ho
  obtain ⟨q, hq, hqs⟩ := exists_placed ho hos
  -- The completed section is placed where the section was.
  have hplace := placement?_of_mem hq base
  rw [hqs, placement?_congr (shape_completed hs)] at hplace
  have hpq : q.placement base = p := Option.some.inj (hplace.symm.trans hp)
  have hoff : q.offset = p.offset := congrArg Placement.offset hpq
  have hslice := slice?_layout_bytes hq
  have htidy := (hs a (List.mem_of_getElem? ha)).tidy s (List.mem_of_getElem? hsec)
  rwa [hqs, hoff, Assembly.length_completedData htidy] at hslice

/-- The place of a fixup in the image. -/
theorem slice?_completed {k i : Nat} {a : Assembly} {s : OpenSection}
    (ha : units[k]? = some a) (hsec : a.sections[i]? = some s)
    (hlen : s.data.length < 0x100000000) {p : Placement}
    (hp : (ofUnits units absolutes).place base k i = some p) {f : Fixup} (hf : f ∈ s.fixups)
    {v : UInt64}
    (hv : a.value? i p.address ((ofUnits units absolutes).address? base k) f = some v) :
    slice? (layout (completed units absolutes base)).bytes (p.offset + f.offset.toNat) f.kind.size =
      some ((f.write v).new ((s.data.drop f.offset.toNat).take f.kind.size)) := by
  have htidy := (hs a (List.mem_of_getElem? ha)).tidy s (List.mem_of_getElem? hsec)
  have hmem : f.write v ∈ s.fixups.filterMap fun g =>
      (a.value? i p.address ((ofUnits units absolutes).address? base k) g).map g.write :=
    List.mem_filterMap.mpr ⟨f, hf, by rw [hv]; rfl⟩
  have hslice := slice?_writeAll hmem (Assembly.completion_within htidy)
    (Assembly.completion_apart htidy hlen)
  rw [Fixup.offset_write, Fixup.size_write] at hslice
  rw [slice?_of_slice? (slice?_completed_section hs ha hsec hp) (htidy.within f hf)]
  exact hslice

end

/-- The word of an instruction in the image, with the field of its fixup filled in. -/
theorem word?_completed {units : List Assembly} {absolutes : NameMap UInt32}
    (hs : ∀ a ∈ units, a.Sound) {image : Image}
    (hbytes : image.bytes = (layout (completed units absolutes image.base)).bytes)
    (hsize : image.base.toNat + (layout (ofUnits units absolutes).objects).bytes.length <
      0x100000000)
    {k i : Nat} {a : Assembly} {t : OpenSection} (ha : units[k]? = some a)
    (hsec : a.sections[i]? = some t) {p : Placement}
    (hp : (ofUnits units absolutes).place image.base k i = some p) (hlen : p.length = t.data.length)
    {f : Fixup} (hf : f ∈ t.fixups) {ty : RelocType} (hty : f.kind.relocType? = some ty)
    (hword : ty = .pc16 ∨ ty = .pc26 ∨ ty = .abs26) {v : UInt64}
    (hv : a.value? i p.address ((ofUnits units absolutes).address? image.base k) f = some v)
    {word : UInt32} (hold : (t.data.drop f.offset.toNat).take 4 = wordBytes word) :
    image.word? (p.address + f.offset) =
      some (ty.rule.mergeWord word (ty.fieldBits v).toUInt32) := by
  obtain ⟨haddr, hstop⟩ := placement?_bounds hp hsize
  have htidy := (hs a (List.mem_of_getElem? ha)).tidy t (List.mem_of_getElem? hsec)
  have hin := htidy.within f hf
  have hsize4 : f.kind.size = 4 := by
    rw [← FixupKind.size_of_relocType? hty]
    rcases hword with rfl | rfl | rfl <;> rfl
  have hslice := slice?_completed hs ha hsec (by omega) hp hf hv
  have hnew : (f.write v).new (wordBytes word) =
      wordBytes (ty.rule.mergeWord word (ty.fieldBits v).toUInt32) := by
    rw [Fixup.write_of_relocType? hty]
    exact RelocType.new_write_wordBytes (by rcases hword with rfl | rfl | rfl <;> decide) _ _ _
  rw [hsize4, hold, hnew, ← hbytes] at hslice
  have hnat : (p.address + f.offset).toNat = image.base.toNat + (p.offset + f.offset.toNat) := by
    rw [UInt32.toNat_add, haddr]
    omega
  unfold Image.word?
  rw [if_neg (by rw [UInt32.lt_iff_toNat_lt]; omega), hnat, Nat.add_sub_cancel_left, hslice,
    Option.map_some, bytesWord_wordBytes]

/-! ## The target of a transfer -/

theorem transferType?_of_mem {op : Opcode} (h : op ∈ [.beqz, .bnez, .jal, .j]) :
    ∃ ty : RelocType, op.transferType? = some ty ∧ (ty = .pc16 ∨ ty = .pc26 ∨ ty = .abs26) ∧
      ∀ symbol place addend, ty.target symbol place addend =
        symbol.toNat + addend.toInt - if op = .j then 0 else (place.toNat : Int) := by
  simp only [List.mem_cons, List.not_mem_nil, or_false] at h
  rcases h with rfl | rfl | rfl | rfl
  · exact ⟨.pc16, rfl, .inl rfl, fun _ _ _ => rfl⟩
  · exact ⟨.pc16, rfl, .inl rfl, fun _ _ _ => rfl⟩
  · exact ⟨.pc26, rfl, .inr (.inl rfl), fun _ _ _ => rfl⟩
  · exact ⟨.abs26, rfl, .inr (.inr rfl), fun _ _ _ => rfl⟩

/-- A value of a transfer that fits, rounded down to a multiple of four. -/
theorem toInt_rounded {ty : RelocType} (hty : ty = .pc16 ∨ ty = .pc26 ∨ ty = .abs26) {t : Int}
    (h : ty.Fits t) : (Int64.ofInt (4 * (t / 4))).toInt = 4 * (t / 4) := by
  apply Int64.toInt_ofInt_of_le
  all_goals
    rcases hty with rfl | rfl | rfl <;> simp only [RelocType.Fits] at h <;> omega

/-- The value of a reference to one symbol. -/
theorem value?_of_refers? {a : Assembly} {home : Nat} {address : UInt32}
    {lookup : String → Option UInt32} {f : Fixup} {ty : RelocType}
    (hty : f.kind.relocType? = some ty) {m : Marker} {symbol : String} {addend : Int64}
    (hf : f.value.refers? = some ⟨m, some symbol, none, addend⟩) {v : UInt64}
    (h : a.value? home address lookup f = some v) :
    ∃ s, lookup symbol = some s ∧ v = relocValue ty s (address + f.offset) addend := by
  unfold Assembly.value? at h
  rw [settle_of_refers? hf (Bool.and_false _)] at h
  simp only [hty, Option.bind_eq_bind, Option.bind_some] at h
  obtain ⟨s, hs, h⟩ := Option.bind_eq_some_iff.mp h
  exact ⟨s, hs, (Option.some.inj h).symm⟩

/-- The transfer in the image of completed units: `a` is its unit when it was appended, and `c` the
unit in the end. -/
theorem transfer_completed {units : List Assembly} {absolutes : NameMap UInt32}
    (hs : ∀ a ∈ units, a.Sound) {image : Image}
    (hn : (ofUnits units absolutes).definedNames.Nodup)
    (hres : AllResolve units absolutes image.base)
    (hbytes : image.bytes = (layout (completed units absolutes image.base)).bytes)
    (hsize : image.base.toNat + (layout (ofUnits units absolutes).objects).bytes.length <
      0x100000000)
    {k : Nat} {a emitted c : Assembly} (hc : units[k]? = some c) (ha : a.Sound)
    (hreach : emitted.Reaches c) {op : Opcode} (hop : op ∈ [.beqz, .bnez, .jal, .j])
    {operands : List Operand} {e : Expr}
    (hemit : a.inst ⟨op, operands ++ [.expr e]⟩ = .ok emitted)
    {m : Marker} {symbol : String} {addend : Int64}
    (he : e.refers? = some ⟨m, some symbol, none, addend⟩) :
    ∃ p s word imm, (ofUnits units absolutes).place image.base k a.current = some p ∧
      (ofUnits units absolutes).address? image.base k symbol = some s ∧
      image.word? (p.address + a.offset) = some word ∧
      decode word = .ok ⟨op, operands ++ [.imm imm]⟩ ∧
      imm.toInt = 4 * ((s.toNat + addend.toInt -
        if op = .j then 0 else ((p.address + a.offset).toNat : Int)) / 4) := by
  obtain ⟨word, fixups, hencode⟩ := Assembly.encode_of_inst hemit
  obtain ⟨ty, hty, hword, htarget⟩ := transferType?_of_mem hop
  obtain ⟨kind, hkind, rfl, hdecode⟩ := decode_patched_transfer hty hencode
  obtain ⟨sec, t, rest, hsec, ht, hdata, hfix⟩ := Assembly.inst_stays ha hencode hemit hreach
  have hf := hfix _ List.mem_cons_self
  simp only [UInt32.zero_add] at hf
  obtain ⟨p, hp, hlen⟩ : ∃ p, (ofUnits units absolutes).place image.base k a.current = some p ∧
      p.length = t.data.length := exists_place_ofUnits image.base hc ht
  obtain ⟨hloc, -⟩ := located hs image.base hn hsize hc ht hp
  obtain ⟨v, hv, hfit⟩ := hres k c hc a.current t ht p hp _ hf
  obtain ⟨s, hsym, rfl⟩ := value?_of_refers? hkind he hv
  have hfits := (fits_relocValue_iff _ _ _ _).mp ((FixupKind.fits_of_relocType? hkind _).mp hfit)
  have hvalue := toInt_relocValue_of_fits hword hfits
  -- The encoded word lies at the offset that the unit had when the instruction was appended.
  have hsmall := hloc.address_lt
  have hlong : sec.data.length + 4 + rest.length = t.data.length := by
    rw [← hdata]
    simp [wordBytes, length_leBytes, Nat.add_assoc]
  have hoff : a.offset.toNat = sec.data.length := by
    rw [Assembly.offset_eq hsec, UInt32.toNat_ofNat']
    omega
  have hold : (t.data.drop a.offset.toNat).take 4 = wordBytes word := by
    rw [hoff, ← hdata, List.append_assoc, List.drop_left]
    exact List.take_left' (length_leBytes 4 _)
  refine ⟨p, s, _, _, hp, hsym,
    word?_completed hs hbytes hsize hc ht hp hlen hf hkind hword hv hold,
    hdecode _ ((FixupKind.fits_of_relocType? hkind _).mp hfit), ?_⟩
  rw [hvalue, toInt_rounded hword hfits, htarget]

/-- In every image that a link makes of finished units, a branch, call or jump to a symbol decodes
to itself, with the distance to the symbol, for a jump its address, rounded down to a multiple of
four. So it reaches its target exactly when the target is a whole number of words away. -/
theorem linked_transfer_reaches_target (units : List (Bool × List Assembly.Operation))
    (objects : List (Object RelocType)) (absolutes : NameMap UInt32) (options : LinkSettings)
    (image : Image)
    (hfinish : units.mapM (fun u => ((Assembly.start u.1).run u.2).finish) = .ok objects)
    (hlink : (Linker.mk (objects.map Object.withCodes) absolutes).link options = .ok image)
    (hsize : options.base.toNat + image.bytes.length < 0x100000000)
    (k : Nat) (localPc : Bool) (before after : List Assembly.Operation) (op : Opcode)
    (hop : op ∈ [.beqz, .bnez, .jal, .j]) (operands : List Operand) (e : Expr)
    (hunit : units[k]? = some (localPc, before ++ .inst ⟨op, operands ++ [.expr e]⟩ :: after))
    (emitted : Assembly) (hemit : ((Assembly.start localPc).run before).inst
      ⟨op, operands ++ [.expr e]⟩ = .ok emitted)
    (marker : Marker) (symbol : String) (addend : Int64)
    (he : e.refers? = some ⟨marker, some symbol, none, addend⟩) :
    let l : Linker := ⟨objects.map Object.withCodes, absolutes⟩
    let a := (Assembly.start localPc).run before
    ∃ p s word imm, l.place options.base k a.current = some p ∧
      l.address? options.base k symbol = some s ∧
      image.word? (p.address + a.offset) = some word ∧
      decode word = .ok ⟨op, operands ++ [.imm imm]⟩ ∧
      let origin : Int := if op = .j then 0 else (p.address + a.offset).toNat
      imm.toInt = 4 * ((s.toNat + addend.toInt - origin) / 4) ∧
      (origin + imm.toInt = s.toNat + addend.toInt ↔
        (s.toNat + addend.toInt) % 4 = origin % 4) := by
  intro l a
  let finals := units.map fun u => (Assembly.start u.1).run u.2
  have hs : ∀ a ∈ finals, a.Sound := by
    intro a ha
    obtain ⟨u, -, rfl⟩ := List.mem_map.mp ha
    exact (Assembly.run_reaches _ _).sound (Assembly.sound_start _)
  -- The objects are those of the units, and the image that of the completed units.
  obtain ⟨hset, hobj⟩ := (Assembly.mapM_finish_eq_ok_iff hs).mp (List.mapM_map.trans hfinish)
  have hl : l = ofFinished finals absolutes := by
    simp only [l, ofFinished, ← hobj, List.map_map]
    rfl
  change l.link options = .ok image at hlink
  rw [hl] at hlink ⊢
  rw [length_bytes_of_link_ofFinished hs hlink] at hsize
  obtain ⟨hn, hres, entry, -, himage⟩ := (link_finished_iff hs hsize).mp ⟨hset, hlink⟩
  have hbase : options.base = image.base := by rw [himage]
  have hbytes : image.bytes = (layout (completed finals absolutes image.base)).bytes := by
    rw [himage]
  rw [hbase] at hsize hres ⊢
  have hperform : a.perform (.inst ⟨op, operands ++ [.expr e]⟩) = .ok emitted := hemit
  have hc : finals[k]? = some (emitted.run after) := by
    rw [List.getElem?_map, hunit, Option.map_some, Assembly.run_append]
    exact congrArg some (Assembly.run_cons_of_ok hperform after)
  have ha : a.Sound := (Assembly.run_reaches _ _).sound (Assembly.sound_start _)
  obtain ⟨p, s, word, imm, hp, hsym, hw, hd, himm⟩ :=
    transfer_completed hs hn hres hbytes hsize hc ha (Assembly.run_reaches emitted after) hop hemit he
  refine ⟨p, s, word, imm, ?_, ?_, hw, hd, himm, ?_⟩
  · rw [place_ofFinished hs]
    exact hp
  · rw [address?_ofFinished hs]
    exact hsym
  · omega

/-- A call to a function of another unit. -/
def farCall : List (Bool × List Assembly.Operation) :=
  [(true, [.inst ⟨.jal, [.expr (.marked .call (.sym "f"))]⟩]),
    (false, [.makeGlobal "f", .label "f", .inst ⟨.jr, [.reg (.ofBits 31)]⟩])]

theorem linked_transfer_reaches_target_farCall :
    ∃ objects image word,
      farCall.mapM (fun u => ((Assembly.start u.1).run u.2).finish) = .ok objects ∧
      (Linker.mk (objects.map Object.withCodes) .empty).link ⟨0x1000, none⟩ = .ok image ∧
      0x1000 + image.bytes.length < 0x100000000 ∧
      image.word? 0x1000 = some word ∧ decode word = .ok ⟨.jal, [.imm 4]⟩ := by
  have hbuilt : ∃ objects image,
      farCall.mapM (fun u => ((Assembly.start u.1).run u.2).finish) = .ok objects ∧
      (Linker.mk (objects.map Object.withCodes) .empty).link ⟨0x1000, none⟩ = .ok image ∧
      0x1000 + image.bytes.length < 0x100000000 ∧
      (Linker.mk (objects.map Object.withCodes) .empty).place 0x1000 0 0 = some ⟨0x1000, 0, 4⟩ ∧
      (Linker.mk (objects.map Object.withCodes) .empty).address? 0x1000 0 "f" = some 0x1004 :=
    ⟨_, _, rfl, rfl, by decide, rfl, rfl⟩
  obtain ⟨objects, image, hfinish, hlink, hsize, hplace, haddr⟩ := hbuilt
  obtain ⟨p, s, word, imm, hp, hs, hword, hdecode, himm, -⟩ :=
    linked_transfer_reaches_target farCall objects .empty ⟨0x1000, none⟩ image hfinish hlink hsize
      0 true [] [] .jal (by decide) [] (.marked .call (.sym "f")) rfl _ rfl .call "f" 0 rfl
  cases hp.symm.trans hplace
  cases hs.symm.trans haddr
  have h4 : imm = 4 := Int64.toInt_inj.mp himm
  exact ⟨objects, image, word, hfinish, hlink, hsize, hword, h4 ▸ hdecode⟩

end Linker

end Dlx
