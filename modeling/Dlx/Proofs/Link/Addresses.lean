import Dlx.Proofs.Call.Address
import Dlx.Proofs.Link.Relocations

/-!
# Linked addresses

The address of a symbol at a distance is built by two instructions, and the linker fills in a half of
it for each. Their fields are cut from 64-bit values with a 64-bit addend, or one that a file has cut
to 32 bits, at two places of the image. Still the halves are those of one address.

Results:
* `toUInt32_relocValue_absolute`: the low word of a relocation's value is the sum of low words.
* `linked_address_exact`: the two words in the image put `S + offset` into their register, for every
  run of operations around them and every link, from the object or through its file.
-/
namespace Dlx

theorem toUInt32_relocValue_absolute {ty : RelocType} (h : ty.rule.pcRelative = false)
    (symbol place : UInt32) (addend : Int64) :
    (relocValue ty symbol place addend).toUInt32 = symbol + immWord addend := by
  have hformula : ¬ ty.formula = .relative := by
    rw [RelocType.formula_eq_relative_iff, h]
    exact Bool.false_ne_true
  have hsymbol : (addressInt symbol).toUInt64.toUInt32 = symbol := by
    rw [addressInt, ← immWord, Machine.immWord_ofNat, UInt32.ofNat_toNat]
  unfold relocValue
  dsimp only
  rw [if_neg hformula, Int64.toUInt64_add, UInt64.toUInt32_add, hsymbol]
  rfl

theorem toNat_add_immWord (symbol : UInt32) (offset : Int64) :
    ((symbol + immWord offset).toNat : Int) = (symbol.toNat + offset.toInt) % 0x100000000 := by
  have hoffset := toNat_toUInt64_cast offset
  rw [UInt32.toNat_add, immWord, UInt64.toNat_toUInt32]
  omega

namespace Linker

/-- The two words of a pair in the image: the values that fill their fields are the same modulo
2^32. -/
theorem slice?_pair {l : Linker} {options : LinkSettings} {image : Image}
    (hlink : l.link options = .ok image) {k : Nat} {o : Object UInt32}
    (ho : l.objects[k]? = some o) {a b c d : Assembly} (ha : a.Sound) {i j : Inst}
    {high low : UInt32} {symbol : String} {offset : Int64}
    (hi : i.EncodesReference high .hi16 symbol offset)
    (hj : j.EncodesReference low .lo16 symbol offset) (hb : a.inst i = .ok b)
    (hcurrent : b.current = a.current) (hoffset : b.offset = a.offset + 4)
    (hc : b.inst j = .ok c) (hd : c.Reaches d)
    (hsize : ∀ s ∈ d.object.sections, s.data.length < 0x100000000)
    (hconveys : d.object.Conveys symbol o) :
    ∃ p s v w, l.place options.base k a.current = some p ∧
      l.address? options.base k symbol = some s ∧
      v.toUInt32 = s + immWord offset ∧ w.toUInt32 = s + immWord offset ∧
      slice? image.bytes (p.offset + a.offset.toNat) 8 =
        some (wordBytes (RelocType.hi16.rule.mergeWord high (RelocType.hi16.fieldBits v).toUInt32) ++
          wordBytes (RelocType.lo16.rule.mergeWord low (RelocType.lo16.fieldBits w).toUInt32)) := by
  have hbsound := (Assembly.inst_step hb).sound ha
  have hbd := (Assembly.inst_step hc).reaches.trans hd
  obtain ⟨p, s, addend, hp, hs, haddend, hhigh⟩ :=
    slice?_inst hlink ho ha hi rfl (by decide) hb hbd hsize hconveys
  obtain ⟨p', s', addend', hp', hs', haddend', hlow⟩ :=
    slice?_inst hlink ho hbsound hj rfl (by decide) hc hd hsize hconveys
  rw [hcurrent] at hp'
  obtain rfl := Option.some.inj (hp.symm.trans hp')
  obtain rfl := Option.some.inj (hs.symm.trans hs')
  -- The section is so short that the second offset has not wrapped.
  have hnext : b.offset.toNat = a.offset.toNat + 4 := by
    obtain ⟨sec, hsec, -, -, hslice⟩ := Assembly.inst_closed ha hi rfl hb hbd hsize
    have hend := (slice?_eq_some_iff.mp hslice).1
    have hlen := hsize sec (List.mem_of_getElem? hsec)
    rw [hoffset, UInt32.toNat_add]
    change (a.offset.toNat + 4) % 4294967296 = _
    omega
  rw [hnext, ← Nat.add_assoc] at hlow
  refine ⟨p, s, _, _, hp, hs, ?_, ?_, slice?_add hhigh hlow⟩
  · rw [toUInt32_relocValue_absolute rfl, immWord, haddend, immWord]
  · rw [toUInt32_relocValue_absolute rfl, immWord, haddend', immWord]

/-- Wherever an address sequence is emitted, and however its object gets to the linker, the two words
in the image put the address of the symbol at the distance into the register, modulo 2^32, and change
nothing else. A file is read with names that end at a NUL, so there the symbol's name must have
none. -/
theorem linked_address_exact (localPc : Bool) (before after : List Assembly.Operation) (dst : Reg)
    (symbol : String) (offset : Int64) (o : Object RelocType)
    (hfinish : ((Assembly.start localPc).run
      (before ++ (addressSequence dst symbol offset).map .inst ++ after)).finish = .ok o)
    (hsize : ∀ s ∈ o.sections, s.data.length < 0x100000000) (o' : Object UInt32)
    (hroute : o' = o.withCodes ∨ Elf.Storable symbol ∧ Elf.WithinLimits o ∧
      Elf.readObject (Elf.writeObject o) = .ok o')
    (l : Linker) (k : Nat) (hobject : l.objects[k]? = some o') (options : LinkSettings)
    (image : Image) (hlink : l.link options = .ok image) :
    let a := (Assembly.start localPc).run before
    ∃ p s high low value, l.place options.base k a.current = some p ∧
      l.address? options.base k symbol = some s ∧
      slice? image.bytes (p.offset + a.offset.toNat) 8 = some (wordBytes high ++ wordBytes low) ∧
      (value.toNat : Int) = (s.toNat + offset.toInt) % 0x100000000 ∧
      ∀ m : Machine, m.runWords [high, low] = some (m.setReg dst value) := by
  intro a
  obtain ⟨i, j, high, low, hpair, hi, hj, hhigh, hlow⟩ := encode_addressSequence dst symbol offset
  obtain ⟨_, hiencode⟩ := hi.encode
  obtain ⟨_, hjencode⟩ := hj.encode
  -- The units before the pair, between the two, and behind it.
  have ha : a.Sound := (Assembly.run_reaches _ _).sound (Assembly.sound_start localPc)
  obtain ⟨b, hb, hcurrent, hoffset⟩ := Assembly.inst_of_encode ha hiencode
  have hbsound := (Assembly.inst_step hb).sound ha
  obtain ⟨c, hc, -⟩ := Assembly.inst_of_encode hbsound hjencode
  have hlater := Assembly.run_reaches c after
  have hdone := hlater.sound ((Assembly.inst_step hc).sound hbsound)
  have hrun : (Assembly.start localPc).run
      (before ++ (addressSequence dst symbol offset).map .inst ++ after) = c.run after := by
    rw [hpair, Assembly.run_append, Assembly.run_append]
    exact congrArg (·.run after) ((@Assembly.run_cons_of_ok a b (.inst i) hb _).trans
      (@Assembly.run_cons_of_ok b c (.inst j) hc _))
  rw [hrun] at hfinish
  obtain ⟨-, rfl⟩ := (Assembly.finish_eq_ok_iff hdone).mp hfinish
  have hconveys : (c.run after).object.Conveys symbol o' := by
    rcases hroute with rfl | ⟨hname, hlimits, hread⟩
    · exact conveys_withCodes symbol _
    · exact conveys_readObject hname hdone hlimits hread
  obtain ⟨p, s, v, w, hp, hs, hv, hw, hslice⟩ :=
    slice?_pair hlink hobject ha hi hj hb hcurrent hoffset hc hlater hsize hconveys
  exact ⟨p, s, _, _, s + immWord offset, hp, hs, hslice, toNat_add_immWord s offset,
    Machine.runWords_filled dst hhigh hlow hv hw⟩

/-- The object of code that builds the address of a variable at the least distance there is, and of
the variable. -/
def farVariable : Object RelocType :=
  ⟨[⟨".text", .text, [0, 0, 5, 60, 0, 0, 165, 32],
      [⟨0, "v", .hi16, Int64.minValue⟩, ⟨4, "v", .lo16, Int64.minValue⟩]⟩,
    ⟨".data", .data, [7, 0, 0, 0], []⟩],
   [⟨"v", some 1, 0, false⟩]⟩

/-- What is read from its file. -/
def farVariableRead : Object UInt32 :=
  ⟨[⟨".text", .text, [0, 0, 5, 60, 0, 0, 165, 32], [⟨0, "v", 4, 0⟩, ⟨4, "v", 3, 0⟩]⟩,
    ⟨".data", .data, [7, 0, 0, 0], []⟩],
   [⟨".text", some 0, 0, false⟩, ⟨".data", some 1, 0, false⟩, ⟨"v", some 1, 0, false⟩]⟩

/-- The variable lies at 0x8000, where the low half of the address is negative. -/
theorem linked_address_exact_farVariable :
    ((Assembly.start true).run ([] ++ (addressSequence (.ofBits 5) "v" Int64.minValue).map .inst ++
      [.enter ".data", .label "v", .value (.const 7) 4])).finish = .ok farVariable ∧
    Elf.WithinLimits farVariable ∧
    Elf.readObject (Elf.writeObject farVariable) = .ok farVariableRead ∧
    ∃ image high low,
      (Linker.mk [farVariableRead] .empty).link ⟨0x7ff8, none⟩ = .ok image ∧
      slice? image.bytes 0 8 = some (wordBytes high ++ wordBytes low) ∧
      ∀ m : Machine, m.runWords [high, low] = some (m.setReg (.ofBits 5) 0x8000) := by
  have hfinish := Except.eq_ok_of_toOption (show ((Assembly.start true).run
    ([] ++ (addressSequence (.ofBits 5) "v" Int64.minValue).map .inst ++
      [.enter ".data", .label "v", .value (.const 7) 4])).finish.toOption = some farVariable by
    decide +kernel)
  have hlimits : Elf.WithinLimits farVariable := ⟨by decide +kernel, by decide, by decide⟩
  have hread := Except.eq_ok_of_toOption (show (Elf.readObject
    (Elf.writeObject farVariable)).toOption = some farVariableRead by decide +kernel)
  have hlink : ∃ image, (Linker.mk [farVariableRead] .empty).link ⟨0x7ff8, none⟩ = .ok image :=
    ⟨_, rfl⟩
  have hplace : (Linker.mk [farVariableRead] .empty).place 0x7ff8 0 0 = some ⟨0x7ff8, 0, 8⟩ := rfl
  have haddress : (Linker.mk [farVariableRead] .empty).address? 0x7ff8 0 "v" = some 0x8000 := rfl
  obtain ⟨image, hlink⟩ := hlink
  obtain ⟨p, s, high, low, value, hp, hs, hslice, hvalue, hrun⟩ :=
    linked_address_exact true [] [.enter ".data", .label "v", .value (.const 7) 4] (.ofBits 5) "v"
      Int64.minValue farVariable hfinish (by decide) farVariableRead
      (.inr ⟨by decide, hlimits, hread⟩) ⟨[farVariableRead], .empty⟩ 0 rfl ⟨0x7ff8, none⟩ image hlink
  cases hp.symm.trans hplace
  cases hs.symm.trans haddress
  have h8000 : value = 0x8000 := UInt32.toNat_inj.mp (Int.ofNat.inj hvalue)
  exact ⟨hfinish, hlimits, hread, image, high, low, hlink, hslice, h8000 ▸ hrun⟩

/-! ## Names with a NUL -/

/-- The object of code that builds the address of a symbol with a NUL in its name. -/
def nulName : Object RelocType :=
  ⟨[⟨".text", .text, [0, 0, 5, 60, 0, 0, 165, 32],
      [⟨0, "a\x00b", .hi16, 0⟩, ⟨4, "a\x00b", .lo16, 0⟩]⟩],
   [⟨"a\x00b", none, 0, true⟩]⟩

/-- What is read from its file: the name has been cut. -/
def nulNameRead : Object UInt32 :=
  ⟨[⟨".text", .text, [0, 0, 5, 60, 0, 0, 165, 32], [⟨0, "a", 4, 0⟩, ⟨4, "a", 3, 0⟩]⟩],
   [⟨".text", some 0, 0, false⟩, ⟨"a", none, 0, true⟩]⟩

/-- A linker that knows the whole name and the cut one. -/
def nulNameLinker : Linker := ⟨[nulNameRead], .ofList [("a", 9), ("a\x00b", 5)]⟩

/-- Through a file, the address of a symbol with a NUL in its name is built for another symbol. -/
theorem nul_in_name_builds_other_address :
    ((Assembly.start true).run ((addressSequence (.ofBits 5) "a\x00b" 0).map .inst)).finish =
      .ok nulName ∧
    Elf.readObject (Elf.writeObject nulName) = .ok nulNameRead ∧
    nulNameLinker.address? 0 0 "a\x00b" = some 5 ∧
    ∃ image, nulNameLinker.link ⟨0, none⟩ = .ok image ∧
      image.bytes = wordBytes 0x3c050000 ++ wordBytes 0x20a50009 ∧
      ∀ m : Machine, m.runWords [0x3c050000, 0x20a50009] = some (m.setReg (.ofBits 5) 9) := by
  refine ⟨Except.eq_ok_of_toOption (by decide +kernel), Except.eq_ok_of_toOption (by decide +kernel),
    rfl, _, rfl, rfl, ?_⟩
  intro m
  exact @Machine.runWords_filled (.ofBits 5) 0x3c050000 0x20a50000 rfl rfl 9 9 9 rfl rfl m

end Linker

end Dlx
