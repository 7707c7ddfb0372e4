import Dlx.Proofs.Assembly.Growth
import Dlx.Proofs.FieldBits
import Dlx.Proofs.Recoding
import Mathlib.Data.List.Nodup

/-!
# What operations emit

What an operation emits does not depend on where it is performed, only the place does. So a section
is said without the assembly: it holds what was emitted while it was current, piece behind piece, and
each fixup has moved by the bytes in front of its piece.

Results:
* `Inst.encode_blank`: the field that a fixup of an instruction is to fill is zero.
* `sectionNamed_run`: what a section holds after a run of operations.
* `bitAt_of_mem_fixupsFrom`: in all that was emitted the fields of fixups are zero.
-/
namespace Dlx

/-! ## The field of a fixup -/

theorem FixupKind.bitWidth_le (kind : FixupKind) : kind.bitWidth ≤ 8 * kind.size := by
  cases kind <;> decide

theorem bitWidth_of_fixupKind? {op : Opcode} {cls : OperandClass} {m : Marker} {kind : FixupKind}
    (h : fixupKind? op cls m = some kind) : kind.bitWidth = cls.width := by
  cases cls with
  | uimm16 =>
    cases m with
    | none =>
      simp only [fixupKind?, bareFixupKind?] at h
      split at h <;> cases h <;> rfl
    | _ => cases h <;> rfl
  | _ => cases m <;> cases h <;> rfl

/-- Beside an immediate, the opcode and the registers are in higher bits. -/
theorem Opcode.above_immediate {op : Opcode} {l : Layout} (h : op.layout? = some l) :
    ∀ s ∈ l.slots, s.cls ≠ .reg → l.fixedBits.toNat % capacity s.cls.width = 0 ∧
      ∀ r ∈ l.slots, r.cls = .reg → s.cls.width ≤ r.shift ∧ r.shift < 32 := by
  cases op <;> cases h <;> decide

theorem Slot.testBit_insert_of_lt {s : Slot} (hs : s.shift < 32) (hw : s.width ≤ 32) (v : UInt32)
    {n : Nat} (hn : n < s.shift) : (s.insert v).toNat.testBit n = false := by
  have hcap : capacity s.shift = 2 ^ s.shift := rfl
  rw [toNat_insert hs hw, hcap, show 0x100000000 = 2 ^ 32 from rfl, Nat.testBit_mod_two_pow,
    Nat.testBit_mul_two_pow]
  simp [Nat.not_le.mpr hn]

/-- A bit that is in none of the fields is the one of the opcode. -/
theorem testBit_foldl_insert {slots : List (Slot × Operand)} {n : Nat}
    (h : ∀ x ∈ slots, (x.1.insert (x.2.field x.1)).toNat.testBit n = false) (word : UInt32) :
    (slots.foldl (fun w x => w ||| x.1.insert (x.2.field x.1)) word).toNat.testBit n =
      word.toNat.testBit n := by
  induction slots generalizing word with
  | nil => rfl
  | cons x rest ih =>
    obtain ⟨hx, hrest⟩ := List.forall_mem_cons.mp h
    rw [List.foldl_cons, ih hrest, UInt32.toNat_or, Nat.testBit_or, hx, Bool.or_false]

theorem eq_of_countP_le_one {α : Type} {p : α → Bool} {l : List α} (h : l.countP p ≤ 1) {x y : α}
    (hx : x ∈ l) (hpx : p x) (hy : y ∈ l) (hpy : p y) : x = y := by
  rw [List.countP_eq_length_filter] at h
  have hx' := List.mem_filter.mpr ⟨hx, hpx⟩
  have hy' := List.mem_filter.mpr ⟨hy, hpy⟩
  match hl : l.filter p, h with
  | [], _ => rw [hl] at hx'; cases hx'
  | [z], _ =>
    rw [hl] at hx' hy'
    rw [List.mem_singleton.mp hx', List.mem_singleton.mp hy']

/-- An immediate without a value leaves all its bits zero, whatever the registers are. -/
theorem testBit_of_field_eq_zero {op : Opcode} {l : Layout} (hl : op.layout? = some l)
    {operands : List Operand} (hlen : operands.length = l.slots.length) {x : Slot × Operand}
    (hx : x ∈ l.slots.zip operands) (hcls : x.1.cls ≠ .reg) (hzero : x.2.field x.1 = 0) {n : Nat}
    (hn : n < x.1.cls.width) :
    ((l.slots.zip operands).foldl (fun w x => w ||| x.1.insert (x.2.field x.1))
      l.fixedBits).toNat.testBit n = false := by
  obtain ⟨hfixed, habove⟩ := Opcode.above_immediate hl x.1 (List.of_mem_zip hx).1 hcls
  have hone : (l.slots.zip operands).countP (fun x => x.1.cls ≠ .reg) ≤ 1 := by
    have hcount := Opcode.countP_slots_le_one hl
    rwa [← List.map_fst_zip (Nat.le_of_eq hlen.symm), List.countP_map] at hcount
  rw [testBit_foldl_insert]
  · have hlow := Nat.testBit_mod_two_pow l.fixedBits.toNat x.1.cls.width n
    have hcap : capacity x.1.cls.width = 2 ^ x.1.cls.width := rfl
    rw [hcap] at hfixed
    rw [hfixed] at hlow
    simpa [hn] using hlow.symm
  · intro y hy
    by_cases hreg : y.1.cls = .reg
    · have hslot := (List.of_mem_zip hy).1
      obtain ⟨hshift, h32⟩ := habove y.1 hslot hreg
      have hbounds := Opcode.slot_bounds hl y.1 hslot
      exact Slot.testBit_insert_of_lt h32 (by omega) _ (by omega)
    · -- there is no other immediate
      have hsame := eq_of_countP_le_one hone hx (by simpa using hcls) hy (by simpa using hreg)
      rw [← hsame, hzero, Slot.insert_zero]
      simp

theorem Inst.encode_blank {i : Inst} {word : UInt32} {fixups : List Fixup}
    (h : i.encode = .ok (word, fixups)) :
    ∀ f ∈ fixups, ∀ n < f.kind.bitWidth, bitAt (wordBytes word) n = false := by
  intro f hf n hn
  obtain ⟨l, hl, hlen, -, heq⟩ := Inst.encode_eq_ok_iff.mp h
  obtain ⟨rfl, rfl⟩ := Prod.mk.inj heq
  obtain ⟨⟨slot, operand⟩, hx, hfix⟩ := List.mem_filterMap.mp hf
  -- the fixup is for an expression, which has no value yet
  obtain ⟨e, rfl⟩ : ∃ e, operand = .expr e := by
    cases operand with
    | expr e => exact ⟨e, rfl⟩
    | _ => cases hfix
  obtain ⟨kind, hkind, rfl⟩ := Option.map_eq_some_iff.mp hfix
  have hwidth : kind.bitWidth = slot.cls.width := bitWidth_of_fixupKind? hkind
  have hcls : slot.cls ≠ .reg := by
    intro hc
    rw [hc] at hkind
    cases hm : e.marker <;> rw [hm] at hkind <;> cases hkind
  have hle : slot.cls.width ≤ 26 := by cases slot.cls <;> decide
  rw [hwidth] at hn
  rw [bitAt_wordBytes (by omega)]
  exact testBit_of_field_eq_zero hl hlen hx hcls rfl hn

namespace Assembly

/-! ## Pieces -/

/-- What an operation adds to a section. The offset of a fixup counts from the first of the bytes; it
is for all of them, and the field that it is to fill is zero. -/
structure Piece where
  bytes : Bytes
  fixups : List Fixup
  covers : ∀ f ∈ fixups, f.offset = 0 ∧ f.kind.size = bytes.length
  blank : ∀ f ∈ fixups, ∀ n < f.kind.bitWidth, bitAt bytes n = false

namespace Piece

def ofBytes (bs : Bytes) : Piece where
  bytes := bs
  fixups := []
  covers := List.forall_mem_nil _
  blank := List.forall_mem_nil _

/-- The word of an instruction; one that cannot be encoded is not there. -/
def ofInst (i : Inst) : Piece :=
  match h : i.encode with
  | .error _ => ofBytes []
  | .ok (word, fixups) =>
    { bytes := wordBytes word
      fixups := fixups
      covers := fun f hf => by
        obtain ⟨hoffset, hsize⟩ := (Inst.encode_fixups h).2 f hf
        exact ⟨hoffset, hsize.trans (length_leBytes 4 _).symm⟩
      blank := Inst.encode_blank h }

theorem ofInst_of_ok {i : Inst} {word : UInt32} {fixups : List Fixup}
    (h : i.encode = .ok (word, fixups)) :
    (ofInst i).bytes = wordBytes word ∧ (ofInst i).fixups = fixups := by
  unfold ofInst
  split
  · next h' => rw [h] at h'; cases h'
  · next h' => rw [h] at h'; cases h'; exact ⟨rfl, rfl⟩

theorem ofInst_of_error {i : Inst} {e : EncodeError} (h : i.encode = .error e) :
    ofInst i = ofBytes [] := by
  unfold ofInst
  split
  · rfl
  · next h' => rw [h] at h'; cases h'

/-- Zeros with a fixup for them. -/
def pending (e : Expr) (kind : FixupKind) : Piece where
  bytes := List.replicate kind.size 0
  fixups := [⟨0, e, kind⟩]
  covers := List.forall_mem_singleton.mpr ⟨rfl, List.length_replicate.symm⟩
  blank := fun _ _ n _ => bitAt_replicate_zero _ n

/-- A data value; one of a size that data does not have is not there. -/
def ofValue (e : Expr) (size : Nat) : Piece :=
  match FixupKind.data? size with
  | none => ofBytes []
  | some kind =>
    match e.constant? with
    | some v => ofBytes (leBytes size v.toUInt64.toNat)
    | none => pending e kind

/-- The fixups of the piece in a section that has `offset` bytes in front of it. -/
def fixupsAt (p : Piece) (offset : UInt32) : List Fixup :=
  p.fixups.map fun f => { f with offset := f.offset + offset }

end Piece

def Operation.piece : Operation → Piece
  | .inst i => .ofInst i
  | .value e size => .ofValue e size
  | .bytes bs => .ofBytes bs
  | .enter _ | .label _ | .makeGlobal _ => .ofBytes []

def bytesOf (pieces : List Piece) : Bytes := pieces.flatMap (·.bytes)

/-- The fixups of pieces one behind the other, with `offset` bytes in front of the first. -/
def fixupsFrom (offset : Nat) : List Piece → List Fixup
  | [] => []
  | p :: rest => p.fixupsAt (UInt32.ofNat offset) ++ fixupsFrom (offset + p.bytes.length) rest

/-- The name of the current section after an operation. -/
def Operation.currentAfter (current : String) : Operation → String
  | .enter name => name
  | _ => current

/-- The pieces that operations add to the section of a name, if the section `current` is current
before the first of them. -/
def emission (name : String) : String → List Operation → List Piece
  | _, [] => []
  | current, op :: rest =>
    (if current = name then [op.piece] else []) ++ emission name (op.currentAfter current) rest

/-! ## Sections by name -/

/-- The section with a name; one that is not open is empty. -/
def sectionNamed (a : Assembly) (name : String) : OpenSection :=
  (a.sections.find? (·.name = name)).getD (.named name)

/-- The section with this name is current. -/
def IsCurrent (a : Assembly) (name : String) : Prop :=
  a.sections[a.current]?.map (·.name) = some name

theorem sectionNamed_eq {a : Assembly} (hn : (a.sections.map (·.name)).Nodup) {s : OpenSection}
    (hs : s ∈ a.sections) : a.sectionNamed s.name = s := by
  unfold sectionNamed
  cases hf : a.sections.find? (·.name = s.name) with
  | none => simpa using List.find?_eq_none.mp hf s hs
  | some t =>
    have hname : t.name = s.name := by simpa using List.find?_some hf
    exact List.inj_on_of_nodup_map hn (List.mem_of_find?_eq_some hf) hs hname

theorem sectionNamed_of_notMem {a : Assembly} {name : String}
    (h : name ∉ a.sections.map (·.name)) : a.sectionNamed name = .named name := by
  have hnone : a.sections.find? (·.name = name) = none := by
    refine List.find?_eq_none.mpr fun s hs hname => h ?_
    exact List.mem_map.mpr ⟨s, hs, by simpa using hname⟩
  rw [sectionNamed, hnone, Option.getD_none]

theorem sectionNamed_enter (a : Assembly) (other name : String) :
    (a.enter other).sectionNamed name = a.sectionNamed name := by
  rcases a.enter_cases other with ⟨i, -, he⟩ | he <;> rw [he]
  · rfl
  · -- a section that is opened is what an unopened one counts as
    unfold sectionNamed
    dsimp only
    rw [List.find?_append]
    cases a.sections.find? (·.name = name) with
    | some s => rfl
    | none =>
      by_cases h : other = name
      · subst h
        simp
      · simp [h]

theorem isCurrent_enter (a : Assembly) (name : String) : (a.enter name).IsCurrent name := by
  unfold enter
  split
  · next i hi =>
    obtain ⟨hlt, hname, -⟩ := List.findIdx?_eq_some_iff_getElem.mp hi
    simpa [IsCurrent, hlt] using hname
  · simp [IsCurrent]

section Current

variable {a : Assembly} (hn : (a.sections.map (·.name)).Nodup) {current : String}
  (hc : a.IsCurrent current)

include hn hc

theorem offset_of_isCurrent : a.offset = UInt32.ofNat (a.sectionNamed current).data.length := by
  obtain ⟨s, hs, rfl⟩ := Option.map_eq_some_iff.mp hc
  rw [offset_eq hs, sectionNamed_eq hn (List.mem_of_getElem? hs)]

theorem sectionNamed_append (bytes : Bytes) (fixups : List Fixup) (name : String) :
    (a.append bytes fixups).sectionNamed name =
      if current = name then
        { a.sectionNamed name with
          data := (a.sectionNamed name).data ++ bytes
          fixups := (a.sectionNamed name).fixups ++ fixups }
      else a.sectionNamed name := by
  have hn' : ((a.append bytes fixups).sections.map (·.name)).Nodup := by rwa [names_append]
  obtain ⟨c, hcur, rfl⟩ := Option.map_eq_some_iff.mp hc
  by_cases hname : name ∈ a.sections.map (·.name)
  · obtain ⟨s, hs, rfl⟩ := List.mem_map.mp hname
    obtain ⟨i, hi⟩ := List.mem_iff_getElem?.mp hs
    have happ := getElem?_append a bytes fixups i
    rw [hi, Option.map_some] at happ
    have hmem := List.mem_of_getElem? happ
    rw [sectionNamed_eq hn hs]
    by_cases hsame : a.current = i
    · -- the section is the current one
      rw [hsame, hi] at hcur
      cases hcur
      rw [if_pos hsame] at hmem
      rw [if_pos rfl]
      exact sectionNamed_eq hn' hmem
    · rw [if_neg hsame] at hmem
      have hne : c.name ≠ s.name := by
        intro h
        have hcs := List.inj_on_of_nodup_map hn (List.mem_of_getElem? hcur) hs h
        obtain ⟨hlt, hget⟩ := List.getElem?_eq_some_iff.mp hi
        obtain ⟨hlt', hget'⟩ := List.getElem?_eq_some_iff.mp hcur
        exact hsame (List.getElem_inj (List.Nodup.of_map _ hn) |>.mp (by rw [hget, hget', hcs]))
      rw [if_neg hne]
      exact sectionNamed_eq hn' hmem
  · have hne : c.name ≠ name := fun h => hname (h ▸ List.mem_map_of_mem (List.mem_of_getElem? hcur))
    rw [if_neg hne, sectionNamed_of_notMem hname]
    exact sectionNamed_of_notMem (by rwa [names_append])

end Current

theorem length_bytesOf_cons (p : Piece) (pieces : List Piece) :
    (bytesOf (p :: pieces)).length = p.bytes.length + (bytesOf pieces).length := by
  simp [bytesOf]

theorem fixupsFrom_append (offset : Nat) (pieces more : List Piece) :
    fixupsFrom offset (pieces ++ more) =
      fixupsFrom offset pieces ++ fixupsFrom (offset + (bytesOf pieces).length) more := by
  induction pieces generalizing offset with
  | nil => rfl
  | cons p rest ih =>
    rw [List.cons_append, fixupsFrom, fixupsFrom, ih, length_bytesOf_cons, List.append_assoc,
      Nat.add_assoc]

end Assembly

namespace OpenSection

/-- The section with pieces added at its end. -/
def extend (s : OpenSection) (pieces : List Assembly.Piece) : OpenSection :=
  { s with
    data := s.data ++ Assembly.bytesOf pieces
    fixups := s.fixups ++ Assembly.fixupsFrom s.data.length pieces }

@[simp] theorem extend_nil (s : OpenSection) : s.extend [] = s := by
  simp [extend, Assembly.bytesOf, Assembly.fixupsFrom]

theorem extend_extend (s : OpenSection) (pieces more : List Assembly.Piece) :
    (s.extend pieces).extend more = s.extend (pieces ++ more) := by
  simp [extend, Assembly.fixupsFrom_append, Assembly.bytesOf]

end OpenSection

namespace Assembly

/-! ## Runs -/

theorem run_single_of_ok {a b : Assembly} {op : Operation} (h : a.perform op = .ok b) :
    a.run [op] = b :=
  run_cons_of_ok h []

theorem run_single_of_error {a : Assembly} {op : Operation} {e : AsmError}
    (h : a.perform op = .error e) : a.run [op] = a := by
  rw [run, h]
  rfl

theorem perform_inst (a : Assembly) {i : Inst} {out : UInt32 × List Fixup}
    (h : i.encode = .ok out) :
    a.perform (.inst i) =
      .ok (a.append (Piece.ofInst i).bytes ((Piece.ofInst i).fixupsAt a.offset)) := by
  obtain ⟨word, fixups⟩ := out
  obtain ⟨hbytes, hfixups⟩ := Piece.ofInst_of_ok h
  rw [perform, inst, h, Piece.fixupsAt, hbytes, hfixups]

theorem perform_value (a : Assembly) {size : Nat} {kind : FixupKind}
    (h : FixupKind.data? size = some kind) (e : Expr) :
    a.perform (.value e size) =
      .ok (a.append (Piece.ofValue e size).bytes ((Piece.ofValue e size).fixupsAt a.offset)) := by
  rw [perform, value, Piece.ofValue, h]
  cases e.constant? with
  | some v => rfl
  | none => simp [Piece.pending, Piece.fixupsAt, FixupKind.size_of_data? h]

/-- Appending nothing changes nothing. -/
theorem append_nil (a : Assembly) : a.append [] [] = a := by
  have hsections : (a.append [] []).sections = a.sections := by
    apply List.ext_getElem?
    intro i
    rw [getElem?_append]
    cases a.sections[i]? <;> simp
  exact congrArg (fun sections => { a with sections := sections }) hsections

/-- An operation changes the sections by entering one or by appending its piece to the current one. -/
theorem run_single_cases (a : Assembly) (op : Operation) :
    (∃ name, op = .enter name ∧ a.run [op] = a.enter name) ∨
      ((∀ current, op.currentAfter current = current) ∧ (a.run [op]).current = a.current ∧
        (a.run [op]).sections =
          (a.append op.piece.bytes (op.piece.fixupsAt a.offset)).sections) := by
  have hnothing : a.sections = (a.append [] []).sections := by rw [append_nil]
  cases op with
  | enter name => exact .inl ⟨name, rfl, rfl⟩
  | label name =>
    refine .inr ⟨fun _ => rfl, ?_⟩
    cases h : a.perform (.label name) with
    | error e =>
      rw [run_single_of_error h]
      exact ⟨rfl, hnothing⟩
    | ok b =>
      rw [run_single_of_ok h]
      obtain ⟨isGlobal, rfl⟩ := label_eq_ok h
      exact ⟨rfl, hnothing⟩
  | makeGlobal name => exact .inr ⟨fun _ => rfl, rfl, hnothing⟩
  | inst i =>
    refine .inr ⟨fun _ => rfl, ?_⟩
    cases hi : i.encode with
    | error e =>
      have h : a.perform (.inst i) = .error (.encode e) := by rw [perform, inst, hi]
      rw [run_single_of_error h, Operation.piece, Piece.ofInst_of_error hi]
      exact ⟨rfl, hnothing⟩
    | ok out =>
      rw [run_single_of_ok (a.perform_inst hi)]
      exact ⟨rfl, rfl⟩
  | value e size =>
    refine .inr ⟨fun _ => rfl, ?_⟩
    cases hk : FixupKind.data? size with
    | none =>
      have h : a.perform (.value e size) = .error (.unsupportedData size) := by
        rw [perform, value, hk]
      rw [run_single_of_error h, Operation.piece, Piece.ofValue, hk]
      exact ⟨rfl, hnothing⟩
    | some kind =>
      rw [run_single_of_ok (a.perform_value hk e)]
      exact ⟨rfl, rfl⟩
  | bytes bs => exact .inr ⟨fun _ => rfl, rfl, rfl⟩

/-- What one operation adds to the section of a name, and which section is current then. -/
theorem sectionNamed_run_single {a : Assembly} (hn : (a.sections.map (·.name)).Nodup)
    {current : String} (hc : a.IsCurrent current) (op : Operation) (name : String) :
    (a.run [op]).sectionNamed name =
        (a.sectionNamed name).extend (if current = name then [op.piece] else []) ∧
      (a.run [op]).IsCurrent (op.currentAfter current) := by
  rcases a.run_single_cases op with ⟨other, rfl, hrun⟩ | ⟨hcur, hindex, hsections⟩
  · rw [hrun, sectionNamed_enter]
    refine ⟨?_, a.isCurrent_enter other⟩
    split
    · simp [OpenSection.extend, bytesOf, fixupsFrom, Piece.fixupsAt, Operation.piece, Piece.ofBytes]
    · rw [OpenSection.extend_nil]
  · have hsame : (a.run [op]).sectionNamed name =
        (a.append op.piece.bytes (op.piece.fixupsAt a.offset)).sectionNamed name := by
      rw [sectionNamed, hsections, sectionNamed]
    rw [hcur, hsame, sectionNamed_append hn hc, offset_of_isCurrent hn hc]
    refine ⟨?_, ?_⟩
    · split
      · next h =>
        subst h
        simp [OpenSection.extend, bytesOf, fixupsFrom]
      · rw [OpenSection.extend_nil]
    · have hnames := congrArg (·[a.current]?) (names_append a op.piece.bytes
        (op.piece.fixupsAt a.offset))
      simp only [List.getElem?_map] at hnames
      rw [IsCurrent, hsections, hindex, hnames]
      exact hc

theorem sectionNamed_run {a : Assembly} (hn : (a.sections.map (·.name)).Nodup) {current : String}
    (hc : a.IsCurrent current) (ops : List Operation) (name : String) :
    (a.run ops).sectionNamed name = (a.sectionNamed name).extend (emission name current ops) := by
  induction ops generalizing a current with
  | nil => rw [run, emission, OpenSection.extend_nil]
  | cons op rest ih =>
    obtain ⟨hsection, hc'⟩ := sectionNamed_run_single hn hc op name
    have hn' := (a.run_reaches [op]).nodup_names hn
    rw [← List.singleton_append, run_append, ih hn' hc', hsection, OpenSection.extend_extend,
      List.singleton_append, emission]

/-- The sections of a unit hold what the operations emitted into them. -/
theorem section_run_start (localPc : Bool) (ops : List Operation) {s : OpenSection}
    (hs : s ∈ ((start localPc).run ops).sections) :
    s.data = bytesOf (emission s.name ".text" ops) ∧
      s.fixups = fixupsFrom 0 (emission s.name ".text" ops) := by
  have hn : ((start localPc).sections.map (·.name)).Nodup := List.nodup_singleton _
  have hc : (start localPc).IsCurrent ".text" := rfl
  have hempty : (start localPc).sectionNamed s.name = .named s.name := by
    rw [start, sectionNamed_enter]
    rfl
  have hend := sectionNamed_run hn hc ops s.name
  rw [sectionNamed_eq ((run_reaches _ ops).nodup_names hn) hs, hempty] at hend
  exact ⟨congrArg OpenSection.data hend, congrArg OpenSection.fixups hend⟩

/-! ## Blank fields -/

/-- The field of a fixup is zero in all that was emitted. -/
theorem bitAt_of_mem_fixupsFrom {pieces : List Piece} {before : Bytes}
    (hsize : (before ++ bytesOf pieces).length < 0x100000000) {f : Fixup}
    (hf : f ∈ fixupsFrom before.length pieces) {n : Nat} (hn : n < f.kind.bitWidth) :
    bitAt (before ++ bytesOf pieces) (8 * f.offset.toNat + n) = false := by
  induction pieces generalizing before with
  | nil => cases hf
  | cons p rest ih =>
    have happend : before ++ bytesOf (p :: rest) = (before ++ p.bytes) ++ bytesOf rest := by
      simp [bytesOf]
    rw [happend] at hsize ⊢
    rcases List.mem_append.mp hf with hf | hf
    · obtain ⟨g, hg, rfl⟩ := List.mem_map.mp hf
      obtain ⟨hoffset, hcover⟩ := p.covers g hg
      have hwidth := g.kind.bitWidth_le
      have hblank := p.blank g hg n hn
      dsimp only at hn ⊢
      rw [hoffset, UInt32.zero_add, UInt32.toNat_ofNat']
      simp only [List.length_append] at hsize
      rw [Nat.mod_eq_of_lt (by omega), bitAt_append_left (by simp; omega), bitAt_append_right,
        hblank]
    · rw [← List.length_append] at hf
      exact ih hsize hf

end Assembly

end Dlx
