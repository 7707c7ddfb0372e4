import Dlx.Proofs.Link.Transfer
import Dlx.Proofs.References

/-!
# Linked data values

A data value is folded when it is emitted, if it is constant; a difference of two symbols of its
section is settled when the unit is finished; a single symbol waits for the linker. All three put
the same into the image: the value of the expression with every symbol replaced by its address.

A marker around a symbol is lost on the way, since the fixups of data take no account of it. So the
value is that of `Expr.stored`, which drops a marker around anything but a constant; around a
constant the marker is folded like the rest.

Results:
* `constant?_of_refers?`: folding after replacing symbols gives the value of a reference.
* `linked_value_stored`: the bytes in the image, for every run of operations, every set of units and
  every link.
-/
namespace Dlx

namespace Expr

/-- The expression with addresses in place of its symbols. -/
def withAddresses (lookup : String → Option UInt32) : Expr → Expr
  | .const v => .const v
  | .sym s =>
    match lookup s with
    | some a => .const (addressInt a)
    | none => .sym s
  | .bin op l r => .bin op (l.withAddresses lookup) (r.withAddresses lookup)
  | .marked m e => .marked m (e.withAddresses lookup)

/-- What a data value is taken for: a marker has an effect only around a constant. -/
def stored : Expr → Expr
  | .marked m e => if (Expr.marked m e).constant? = none then e else .marked m e
  | e => e

/-- A constant has no symbols to replace. -/
theorem constant?_withAddresses {lookup : String → Option UInt32} {e : Expr} {v : Int64}
    (h : e.constant? = some v) : (e.withAddresses lookup).constant? = some v := by
  induction e generalizing v with
  | const c => exact h
  | sym s => cases h
  | bin op l r ihl ihr =>
    simp only [constant?, Option.bind_eq_bind, Option.bind_eq_some_iff] at h
    obtain ⟨x, hx, y, hy, hv⟩ := h
    simp only [withAddresses, constant?, ihl hx, ihr hy]
    exact hv
  | marked m e ih =>
    simp only [constant?, Option.bind_eq_bind, Option.bind_eq_some_iff] at h
    obtain ⟨x, hx, hv⟩ := h
    simp only [withAddresses, constant?, ih hx]
    exact hv

theorem stored_of_constant? {e : Expr} {v : Int64} (h : e.constant? = some v) : e.stored = e := by
  cases e with
  | marked m e => exact if_neg (by simp [h])
  | _ => rfl

end Expr

/-- The value of a reference whose symbols have addresses. -/
def SymbolRef.value? (lookup : String → Option UInt32) : SymbolRef → Option Int64
  | ⟨_, none, _, addend⟩ => some addend
  | ⟨_, some symbol, none, addend⟩ => (lookup symbol).map fun s => addressInt s + addend
  | ⟨_, some symbol, some subtrahend, addend⟩ => do
    return addressInt (← lookup symbol) - addressInt (← lookup subtrahend) + addend

namespace Expr

theorem RefersUnder.constant?_eq {lookup : String → Option UInt32} {m : Marker} {e : Expr}
    {r : SymbolRef} (h : RefersUnder m e r) :
    (e.withAddresses lookup).constant? = r.value? lookup := by
  cases h with
  | const c => rfl
  | sym s => cases hs : lookup s <;> simp [withAddresses, hs, constant?, SymbolRef.value?]
  | symAdd s c =>
    cases hs : lookup s <;> simp [withAddresses, hs, constant?, SymbolRef.value?, BinOp.apply]
  | symSub s c =>
    cases hs : lookup s <;>
      simp [withAddresses, hs, constant?, SymbolRef.value?, BinOp.apply, Int64.sub_eq_add_neg]
  | difference s t hm =>
    cases hs : lookup s <;> cases ht : lookup t <;>
      simp [withAddresses, hs, ht, constant?, SymbolRef.value?, BinOp.apply]

/-- What is stored for a reference folds to its value. -/
theorem constant?_of_refers? {lookup : String → Option UInt32} {e : Expr} {r : SymbolRef}
    (hconst : e.constant? = none) (h : e.refers? = some r) :
    (e.stored.withAddresses lookup).constant? = r.value? lookup := by
  have hunmarked : e.stored = e.unmarked := by
    cases e with
    | marked m inner => exact if_pos hconst
    | _ => rfl
  rw [hunmarked]
  exact (refers?_eq_some_iff.mp h).2.constant?_eq

end Expr

/-! ## Data fixups -/

namespace Assembly

/-- The value of a data fixup is that of its reference. A difference of symbols is the same before
and after its section is placed. -/
theorem value?_of_data {a : Assembly} {home : Nat} {p : Placement}
    {lookup : String → Option UInt32} (hloc : a.Located home p lookup) {size : Nat} {f : Fixup}
    (hkind : FixupKind.data? size = some f.kind) {v : UInt64}
    (h : a.value? home p.address lookup f = some v) :
    ∃ r w, f.value.refers? = some r ∧ r.value? lookup = some w ∧ v = w.toUInt64 := by
  cases hr : f.value.refers? with
  | none => simp [value?, settle, hr] at h
  | some r =>
    obtain ⟨m, symbol, subtrahend, addend⟩ := r
    match symbol, subtrahend with
    | none, _ =>
      simp only [value?, settle, hr, Option.some.injEq] at h
      exact ⟨_, addend, rfl, rfl, h.symm⟩
    | some symbol, some subtrahend =>
      simp only [value?, settle, hr] at h
      cases hx : a.symbols.offsetIn? home symbol with
      | none => simp [hx] at h
      | some x =>
        cases hy : a.symbols.offsetIn? home subtrahend with
        | none => simp [hx, hy] at h
        | some y =>
          simp only [hx, hy, Option.some.injEq] at h
          obtain ⟨hxle, hxs⟩ := hloc.symbols symbol x hx
          obtain ⟨hyle, hys⟩ := hloc.symbols subtrahend y hy
          refine ⟨_, _, rfl, by simp only [SymbolRef.value?, hxs, hys]; rfl, ?_⟩
          rw [← h, addressInt_add hloc.address_lt hxle, addressInt_add hloc.address_lt hyle]
          congr 1
          grind
    | some symbol, none =>
      cases hty : f.kind.relocType? with
      | none => simp [value?, settle_of_refers? hr, hty] at h
      | some ty =>
        obtain ⟨s, hs, hv⟩ := Linker.value?_of_refers? hty hr h
        refine ⟨_, addressInt s + addend, rfl, by simp [SymbolRef.value?, hs], ?_⟩
        rw [hv]
        rcases FixupKind.relocType?_of_data? hkind hty with ⟨rfl, -⟩ | ⟨rfl, -⟩ <;> rfl

end Assembly

namespace Linker

/-! ## The image of a run -/

/-- Units that were run, finished and linked: the image is that of the completed units, and sections
and symbols are where they are before any fixup is settled. -/
theorem completed_of_link {units : List (Bool × List Assembly.Operation)}
    {objects : List (Object RelocType)} {absolutes : NameMap UInt32} {options : LinkSettings}
    {image : Image}
    (hfinish : units.mapM (fun u => ((Assembly.start u.1).run u.2).finish) = .ok objects)
    (hlink : (Linker.mk (objects.map Object.withCodes) absolutes).link options = .ok image)
    (hsize : options.base.toNat + image.bytes.length < 0x100000000) :
    let l : Linker := ⟨objects.map Object.withCodes, absolutes⟩
    let finals := units.map fun u => (Assembly.start u.1).run u.2
    (∀ a ∈ finals, a.Sound) ∧ (ofUnits finals absolutes).definedNames.Nodup ∧
      AllResolve finals absolutes options.base ∧
      image.bytes = (layout (completed finals absolutes options.base)).bytes ∧
      options.base.toNat + (layout (ofUnits finals absolutes).objects).bytes.length < 0x100000000 ∧
      l.place options.base = (ofUnits finals absolutes).place options.base ∧
      l.address? options.base = (ofUnits finals absolutes).address? options.base := by
  intro l finals
  have hs : ∀ a ∈ finals, a.Sound := by
    intro a ha
    obtain ⟨u, -, rfl⟩ := List.mem_map.mp ha
    exact (Assembly.run_reaches _ _).sound (Assembly.sound_start _)
  obtain ⟨hset, hobj⟩ := (Assembly.mapM_finish_eq_ok_iff hs).mp (List.mapM_map.trans hfinish)
  have hl : l = ofFinished finals absolutes := by
    simp only [l, ofFinished, ← hobj, List.map_map]
    rfl
  change l.link options = .ok image at hlink
  rw [hl] at hlink ⊢
  rw [length_bytes_of_link_ofFinished hs hlink] at hsize
  obtain ⟨hn, hres, entry, -, himage⟩ := (link_finished_iff hs hsize).mp ⟨hset, hlink⟩
  exact ⟨hs, hn, hres, by rw [himage], hsize, place_ofFinished hs _, address?_ofFinished hs _⟩

section
variable {units : List Assembly} {absolutes : NameMap UInt32} (hs : ∀ a ∈ units, a.Sound)
  {base : UInt32} (hn : (ofUnits units absolutes).definedNames.Nodup)
  (hres : AllResolve units absolutes base)
  (hsize : base.toNat + (layout (ofUnits units absolutes).objects).bytes.length < 0x100000000)
  {k : Nat} {a emitted c : Assembly} (hc : units[k]? = some c) (ha : a.Sound)
  (hreach : emitted.Reaches c) {e : Expr} {size : Nat} (hemit : a.value e size = .ok emitted)
include hs hn hres hsize hc ha hreach hemit

/-- The value in the image of completed units: `a` is its unit when it was appended, and `c` the unit
in the end. -/
theorem value_completed :
    ∃ p v, (ofUnits units absolutes).place base k a.current = some p ∧
      (e.stored.withAddresses ((ofUnits units absolutes).address? base k)).constant? = some v ∧
      slice? (layout (completed units absolutes base)).bytes (p.offset + a.offset.toNat) size =
        some (leBytes size v.toUInt64.toNat) := by
  obtain ⟨sec, t, bytes, rest, hsec, ht, hdata, hbytes, hvalue⟩ :=
    Assembly.value_stays ha hemit hreach
  obtain ⟨p, hp, hlen⟩ : ∃ p, (ofUnits units absolutes).place base k a.current = some p ∧
      p.length = t.data.length := exists_place_ofUnits base hc ht
  obtain ⟨hloc, -⟩ := located hs base hn hsize hc ht hp
  have htidy := (hs c (List.mem_of_getElem? hc)).tidy t (List.mem_of_getElem? ht)
  -- The value lies at the offset that the unit had when it was appended.
  have hlong : sec.data.length + size + rest.length = t.data.length := by
    rw [← hdata, ← hbytes]
    simp [Nat.add_assoc]
  have hsmall := hloc.address_lt
  have hoff : a.offset.toNat = sec.data.length := by
    rw [Assembly.offset_eq hsec, UInt32.toNat_ofNat']
    omega
  rcases hvalue with ⟨v, he, rfl, huntouched⟩ | ⟨kind, he, hkind, hf⟩
  · refine ⟨p, v, hp, ?_, ?_⟩
    · rw [Expr.stored_of_constant? he]
      exact Expr.constant?_withAddresses he
    · rw [hoff, slice?_of_slice? (slice?_completed_section hs hc ht hp) (by omega),
        Assembly.completedData, slice?_writeAll_of_apart (Assembly.completion_within htidy)]
      · rw [slice?_eq_some_iff, ← hdata, List.append_assoc, List.drop_left]
        exact ⟨by simp [hbytes], List.take_left' hbytes⟩
      · intro w hw
        obtain ⟨f, hf, hw⟩ := List.mem_filterMap.mp hw
        obtain ⟨x, -, rfl⟩ := Option.map_eq_some_iff.mp hw
        simpa using huntouched (by omega) f hf
  · obtain ⟨x, hx, -⟩ := hres k c hc a.current t ht p hp _ hf
    obtain ⟨r, w, hr, hw, rfl⟩ := Assembly.value?_of_data hloc hkind hx
    refine ⟨p, w, hp, (Expr.constant?_of_refers? he hr).trans hw, ?_⟩
    have hslice := slice?_completed hs hc ht (by omega) hp hf hx
    rw [Fixup.new_write_data hkind] at hslice
    rwa [FixupKind.size_of_data? hkind] at hslice

end

/-- In every image that a link makes of finished units, a data value is where it was emitted, as the
low bytes of the value of its expression with every symbol replaced by its address. A marker counts
only around a constant; an expression without one outermost is stored as it is written. -/
theorem linked_value_stored (units : List (Bool × List Assembly.Operation))
    (objects : List (Object RelocType)) (absolutes : NameMap UInt32) (options : LinkSettings)
    (image : Image)
    (hfinish : units.mapM (fun u => ((Assembly.start u.1).run u.2).finish) = .ok objects)
    (hlink : (Linker.mk (objects.map Object.withCodes) absolutes).link options = .ok image)
    (hsize : options.base.toNat + image.bytes.length < 0x100000000)
    (k : Nat) (localPc : Bool) (before after : List Assembly.Operation) (e : Expr) (size : Nat)
    (hunit : units[k]? = some (localPc, before ++ .value e size :: after)) (emitted : Assembly)
    (hemit : ((Assembly.start localPc).run before).value e size = .ok emitted) :
    let l : Linker := ⟨objects.map Object.withCodes, absolutes⟩
    let a := (Assembly.start localPc).run before
    ∃ p v, l.place options.base k a.current = some p ∧
      slice? image.bytes (p.offset + a.offset.toNat) size =
        some (leBytes size v.toUInt64.toNat) ∧
      (e.stored.withAddresses (l.address? options.base k)).constant? = some v ∧
      ((∀ m inner, e = .marked m inner → e.constant? ≠ none) →
        (e.withAddresses (l.address? options.base k)).constant? = some v) := by
  intro l a
  obtain ⟨hs, hn, hres, hbytes, hsize, hplace, haddress⟩ := completed_of_link hfinish hlink hsize
  rw [hplace, haddress, hbytes]
  have hc : (units.map fun u => (Assembly.start u.1).run u.2)[k]? = some (emitted.run after) := by
    have hperform : a.perform (.value e size) = .ok emitted := hemit
    rw [List.getElem?_map, hunit, Option.map_some, Assembly.run_append]
    exact congrArg some (Assembly.run_cons_of_ok hperform after)
  have ha : a.Sound := (Assembly.run_reaches _ _).sound (Assembly.sound_start _)
  obtain ⟨p, v, hp, hvalue, hslice⟩ := value_completed hs hn hres hsize hc ha
    (Assembly.run_reaches emitted after) hemit
  refine ⟨p, v, hp, hslice, hvalue, fun hmark => ?_⟩
  have hstored : e.stored = e := by
    cases e with
    | marked m inner => exact if_neg (hmark m inner rfl)
    | _ => rfl
  rwa [hstored] at hvalue

/-- A place in front of a function of another unit, in a section that starts with a byte. -/
def tableEntry : List (Bool × List Assembly.Operation) :=
  [(true, [.makeGlobal "f", .label "f", .inst ⟨.jr, [.reg (.ofBits 31)]⟩]),
    (false, [.enter ".data", .bytes [1], .value (.bin .sub (.sym "f") (.const 8)) 8])]

theorem linked_value_stored_tableEntry :
    ∃ objects image,
      tableEntry.mapM (fun u => ((Assembly.start u.1).run u.2).finish) = .ok objects ∧
      (Linker.mk (objects.map Object.withCodes) .empty).link ⟨0x1000, none⟩ = .ok image ∧
      0x1000 + image.bytes.length < 0x100000000 ∧
      slice? image.bytes 5 8 = some [0xf8, 0x0f, 0, 0, 0, 0, 0, 0] := by
  have hbuilt : ∃ objects image,
      tableEntry.mapM (fun u => ((Assembly.start u.1).run u.2).finish) = .ok objects ∧
      (Linker.mk (objects.map Object.withCodes) .empty).link ⟨0x1000, none⟩ = .ok image ∧
      0x1000 + image.bytes.length < 0x100000000 ∧
      (Linker.mk (objects.map Object.withCodes) .empty).place 0x1000 1 1 = some ⟨0x1004, 4, 9⟩ ∧
      (Linker.mk (objects.map Object.withCodes) .empty).address? 0x1000 1 "f" = some 0x1000 :=
    ⟨_, _, rfl, rfl, by decide, rfl, rfl⟩
  obtain ⟨objects, image, hfinish, hlink, hsize, hplace, haddr⟩ := hbuilt
  obtain ⟨p, v, hp, hslice, -, hv⟩ :=
    linked_value_stored tableEntry objects .empty ⟨0x1000, none⟩ image hfinish hlink hsize
      1 false [.enter ".data", .bytes [1]] [] (.bin .sub (.sym "f") (.const 8)) 8 rfl _ rfl
  have hv' := hv (fun _ _ h => nomatch h)
  cases hp.symm.trans hplace
  simp only [Expr.withAddresses, haddr] at hv'
  cases hv'
  exact ⟨objects, image, hfinish, hlink, hsize, hslice⟩

/-- Around a symbol a marker is lost: the word holds the whole address, while the low half of the
address is what the expression stands for. -/
theorem low_half_of_symbol_not_stored :
    ∃ objects image,
      [(true, [Assembly.Operation.value (.marked .lo (.sym "x")) 4])].mapM
        (fun u => ((Assembly.start u.1).run u.2).finish) = .ok objects ∧
      let l : Linker := ⟨objects.map Object.withCodes, NameMap.empty.insert "x" 0x12345678⟩
      l.link ⟨0, none⟩ = .ok image ∧
      ((Expr.marked .lo (.sym "x")).withAddresses (l.address? 0 0)).constant? = some 0x5678 ∧
      slice? image.bytes 0 4 = some [0x78, 0x56, 0x34, 0x12] ∧
      slice? image.bytes 0 4 ≠ some (leBytes 4 0x5678) :=
  ⟨_, _, rfl, rfl, by decide, by decide, by decide⟩

end Linker

end Dlx
