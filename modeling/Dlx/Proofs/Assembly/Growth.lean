import Dlx.Assembly
import Dlx.Proofs.Patch
import Mathlib.Logic.Relation

/-!
# How an assembly grows

Whatever is done with an assembly is a sequence of four steps: enter a section, append bytes with at
most one fixup for all of them, define a label, make a symbol global. `Assembly.Step` says so once;
what holds of every assembly that a program can reach follows by induction over the steps.

Results:
* `statements_reaches`, `run_reaches`: programs and runs of single operations consist of steps.
* `Reaches.sound`: labels lie in sections that exist, and fixups in the data, one after the other.
* `Reaches.nodup_names`: no two sections have the same name.
* `Reaches.grows`: sections only grow, at their ends; what is added to a section does not touch what
  was there (`Reaches.later_fixups`).
-/
namespace Dlx

/-- How many bytes are patched for a kind of fixup. -/
def FixupKind.size : FixupKind → Nat
  | data1 => 1
  | data2 => 2
  | data8 => 8
  | _ => 4

theorem FixupKind.size_of_relocType? {kind : FixupKind} {ty : RelocType}
    (h : kind.relocType? = some ty) : ty.rule.size = kind.size := by
  cases kind <;> cases h <;> rfl

theorem FixupKind.ne_none_of_relocType? {kind : FixupKind} {ty : RelocType}
    (h : kind.relocType? = some ty) : ty ≠ .none := by
  cases kind <;> cases h <;> decide

theorem FixupKind.size_of_data? {size : Nat} {kind : FixupKind} (h : data? size = some kind) :
    kind.size = size := by
  unfold data? at h
  split at h <;> cases h <;> rfl

/-! ## The fixups of an instruction -/

theorem size_of_bareFixupKind? {op : Opcode} {cls : OperandClass} {kind : FixupKind}
    (h : bareFixupKind? op cls = some kind) : kind.size = 4 := by
  cases cls with
  | uimm16 =>
    -- the one class whose fixup hangs on the opcode
    simp only [bareFixupKind?] at h
    split at h <;> cases h <;> rfl
  | _ => cases h <;> rfl

theorem size_of_fixupKind? {op : Opcode} {cls : OperandClass} {m : Marker} {kind : FixupKind}
    (h : fixupKind? op cls m = some kind) : kind.size = 4 := by
  unfold fixupKind? at h
  split at h
  · exact size_of_bareFixupKind? h
  all_goals cases h <;> rfl

theorem encodeOperand_fixups {op : Opcode} {index : Nat} {slot : Slot} {operand : Operand}
    {field : UInt32} {fixups : List Fixup}
    (h : encodeOperand op index slot operand = .ok (field, fixups)) :
    fixups.length ≤ (if slot.cls ≠ .reg then 1 else 0) ∧
      ∀ f ∈ fixups, f.offset = 0 ∧ f.kind.size = 4 := by
  cases operand with
  | reg r =>
    simp only [encodeOperand] at h
    split at h <;> cases h
    simp
  | imm v =>
    simp only [encodeOperand] at h
    split at h <;> cases h
    simp
  | expr e =>
    by_cases hc : slot.cls = .reg
    · simp [encodeOperand, hc] at h
    · simp only [encodeOperand, hc, if_false, chooseFixup] at h
      split at h
      · cases h
      · cases hk : fixupKind? op slot.cls e.marker with
        | none => simp [hk, bind, Except.bind] at h
        | some kind =>
          simp only [hk, bind, Except.bind, pure, Except.pure, Except.ok.injEq, Prod.mk.injEq] at h
          obtain ⟨-, rfl⟩ := h
          simp [hc, size_of_fixupKind? hk]

theorem encodeOperands_fixups {op : Opcode} {word word' : UInt32} {index : Nat}
    {slots : List (Slot × Operand)} {fixups : List Fixup}
    (h : encodeOperands op word index slots = .ok (word', fixups)) :
    fixups.length ≤ slots.countP (fun x => x.1.cls ≠ .reg) ∧
      ∀ f ∈ fixups, f.offset = 0 ∧ f.kind.size = 4 := by
  induction slots generalizing word index word' fixups with
  | nil => cases h; simp
  | cons x rest ih =>
    simp only [encodeOperands, Except.bind_eq_ok_iff, Prod.exists] at h
    obtain ⟨field, first, hx, _, more, hrest, h⟩ := h
    cases h
    obtain ⟨hlen, hall⟩ := encodeOperand_fixups hx
    obtain ⟨hlen', hall'⟩ := ih hrest
    refine ⟨?_, ?_⟩
    · rw [List.length_append, List.countP_cons]
      simp only [decide_eq_true_eq]
      omega
    · intro f hf
      rcases List.mem_append.mp hf with hf | hf
      · exact hall f hf
      · exact hall' f hf

/-- No instruction has two operands that are not registers. -/
theorem Opcode.countP_slots_le_one {op : Opcode} {l : Layout} (h : op.layout? = some l) :
    l.slots.countP (fun s => s.cls ≠ .reg) ≤ 1 := by
  cases op <;> cases h <;> decide

theorem Inst.encode_fixups {i : Inst} {word : UInt32} {fixups : List Fixup}
    (h : i.encode = .ok (word, fixups)) :
    fixups.length ≤ 1 ∧ ∀ f ∈ fixups, f.offset = 0 ∧ f.kind.size = 4 := by
  unfold Inst.encode at h
  split at h
  · cases h
  · next l hl =>
    split at h
    · next hlen =>
      obtain ⟨hcount, hall⟩ := encodeOperands_fixups h
      have hslots : (l.slots.zip i.operands).countP (fun x => x.1.cls ≠ .reg) =
          l.slots.countP (fun s => s.cls ≠ .reg) := by
        rw [← List.map_fst_zip (Nat.le_of_eq hlen.symm), List.countP_map, List.map_fst_zip]
        · rfl
        · exact Nat.le_of_eq hlen.symm
      have := Opcode.countP_slots_le_one hl
      exact ⟨by omega, hall⟩
    · cases h

namespace Assembly

/-! ## Steps -/

/-- One step of an assembly. -/
inductive Step : Assembly → Assembly → Prop
  | enter (a : Assembly) (name : String) : Step a (a.enter name)
  | append (a : Assembly) (bytes : Bytes) (fixups : List Fixup) (hone : fixups.length ≤ 1)
      (hfix : ∀ f ∈ fixups, f.offset = a.offset ∧ f.kind.size = bytes.length) :
      Step a (a.append bytes fixups)
  | label {a b : Assembly} (name : String) (h : a.label name = .ok b) : Step a b
  | makeGlobal (a : Assembly) (name : String) : Step a (a.makeGlobal name)

/-- Any number of steps. -/
def Reaches : Assembly → Assembly → Prop := Relation.ReflTransGen Step

theorem Reaches.trans {a b c : Assembly} (h : Reaches a b) (h' : Reaches b c) : Reaches a c :=
  Relation.ReflTransGen.trans h h'

theorem Step.reaches {a b : Assembly} (h : Step a b) : Reaches a b := Relation.ReflTransGen.single h

theorem encode_of_inst {a b : Assembly} {i : Inst} (h : a.inst i = .ok b) :
    ∃ word fixups, i.encode = .ok (word, fixups) := by
  unfold inst at h
  split at h
  · cases h
  · next word fixups hi => exact ⟨word, fixups, hi⟩

theorem inst_step {a b : Assembly} {i : Inst} (h : a.inst i = .ok b) : Step a b := by
  unfold inst at h
  split at h
  · cases h
  · next word fixups hi =>
    cases h
    obtain ⟨hone, hfix⟩ := Inst.encode_fixups hi
    apply Step.append
    · rwa [List.length_map]
    · intro f hf
      obtain ⟨g, hg, rfl⟩ := List.mem_map.mp hf
      obtain ⟨h0, h4⟩ := hfix g hg
      simp [h0, h4, wordBytes, length_leBytes]

theorem value_step {a b : Assembly} {e : Expr} {size : Nat} (h : a.value e size = .ok b) :
    Step a b := by
  unfold value at h
  split at h
  · cases h
  · next kind hk =>
    split at h
    · cases h
      exact Step.append _ _ _ (Nat.zero_le _) (fun f hf => nomatch hf)
    · cases h
      apply Step.append
      · exact Nat.le_refl 1
      · intro f hf
        cases List.mem_singleton.mp hf
        simp [FixupKind.size_of_data? hk]

theorem values_reaches {a b : Assembly} {size : Nat} {es : List Expr}
    (h : a.values size es = .ok b) : Reaches a b := by
  induction es generalizing a with
  | nil => cases h; exact Relation.ReflTransGen.refl
  | cons e rest ih =>
    simp only [values, Except.bind_eq_ok_iff] at h
    obtain ⟨c, hc, h⟩ := h
    exact (value_step hc).reaches.trans (ih h)

theorem statement_reaches {a b : Assembly} {s : Statement} (h : a.statement s = .ok b) :
    Reaches a b := by
  cases s with
  | label name => exact (Step.label name h).reaches
  | enter name => cases h; exact (Step.enter a name).reaches
  | makeGlobal name => cases h; exact (Step.makeGlobal a name).reaches
  | data size es => exact values_reaches h
  | inst i => exact (inst_step h).reaches

theorem statements_reaches {a b : Assembly} {program : List Statement}
    (h : a.statements program = .ok b) : Reaches a b := by
  induction program generalizing a with
  | nil => cases h; exact Relation.ReflTransGen.refl
  | cons s rest ih =>
    simp only [statements, Except.bind_eq_ok_iff] at h
    obtain ⟨c, hc, h⟩ := h
    exact (statement_reaches hc).trans (ih h)

/-! ## Runs of single operations -/

/-- What can be asked of an assembly. -/
inductive Operation where
  | enter (name : String)
  | label (name : String)
  | makeGlobal (name : String)
  | inst (i : Inst)
  | value (e : Expr) (size : Nat)
  | bytes (bs : Bytes)

def perform (a : Assembly) : Operation → Except AsmError Assembly
  | .enter name => .ok (a.enter name)
  | .label name => a.label name
  | .makeGlobal name => .ok (a.makeGlobal name)
  | .inst i => a.inst i
  | .value e size => a.value e size
  | .bytes bs => .ok (a.bytes bs)

/-- Performs operations one after the other. One that fails changes nothing. -/
def run (a : Assembly) : List Operation → Assembly
  | [] => a
  | op :: rest =>
    match a.perform op with
    | .ok b => b.run rest
    | .error _ => a.run rest

theorem perform_step {a b : Assembly} {op : Operation} (h : a.perform op = .ok b) : Step a b := by
  cases op with
  | enter name => cases h; exact Step.enter a name
  | label name => exact Step.label name h
  | makeGlobal name => cases h; exact Step.makeGlobal a name
  | inst i => exact inst_step h
  | value e size => exact value_step h
  | bytes bs => cases h; exact Step.append _ _ _ (Nat.zero_le _) (fun f hf => nomatch hf)

theorem run_reaches (a : Assembly) (ops : List Operation) : Reaches a (a.run ops) := by
  induction ops generalizing a with
  | nil => exact Relation.ReflTransGen.refl
  | cons op rest ih =>
    unfold run
    split
    · next b hb => exact (perform_step hb).reaches.trans (ih b)
    · exact ih a

theorem run_cons_of_ok {a b : Assembly} {op : Operation} (h : a.perform op = .ok b)
    (ops : List Operation) : a.run (op :: ops) = b.run ops := by
  rw [run, h]

theorem run_append (a : Assembly) (ops ops' : List Operation) :
    a.run (ops ++ ops') = (a.run ops).run ops' := by
  induction ops generalizing a with
  | nil => rfl
  | cons op rest ih =>
    rw [List.cons_append, run, run]
    split <;> exact ih _

end Assembly

/-! ## What holds of every assembly -/

/-- The fixups of a section lie in its data, and one after the other as long as the offsets do not
wrap. -/
structure OpenSection.Tidy (s : OpenSection) : Prop where
  within : ∀ f ∈ s.fixups, f.offset.toNat + f.kind.size ≤ s.data.length
  ordered : s.data.length < 0x100000000 →
    s.fixups.Pairwise fun f g => f.offset.toNat + f.kind.size ≤ g.offset.toNat

theorem OpenSection.Tidy.apart {s : OpenSection} (hs : s.Tidy) (hlen : s.data.length < 0x100000000)
    {f g : Fixup} (hf : f ∈ s.fixups) (hg : g ∈ s.fixups) (hne : f ≠ g) :
    f.offset.toNat + f.kind.size ≤ g.offset.toNat ∨
      g.offset.toNat + g.kind.size ≤ f.offset.toNat := by
  have hordered := List.pairwise_iff_getElem.mp (hs.ordered hlen)
  obtain ⟨i, hi, rfl⟩ := List.getElem_of_mem hf
  obtain ⟨j, hj, rfl⟩ := List.getElem_of_mem hg
  rcases Nat.lt_trichotomy i j with h | rfl | h
  · exact .inl (hordered i j hi hj h)
  · exact absurd rfl hne
  · exact .inr (hordered j i hj hi h)

@[simp] theorem OpenSection.name_named (name : String) : (OpenSection.named name).name = name := rfl

theorem OpenSection.tidy_named (name : String) : (OpenSection.named name).Tidy :=
  ⟨fun _ hf => (nomatch hf), fun _ => List.Pairwise.nil⟩

theorem OpenSection.Tidy.append {s : OpenSection} (h : s.Tidy) {bytes : Bytes}
    {fixups : List Fixup} (hone : fixups.length ≤ 1)
    (hfix : ∀ f ∈ fixups, f.offset = UInt32.ofNat s.data.length ∧ f.kind.size = bytes.length) :
    OpenSection.Tidy { s with data := s.data ++ bytes, fixups := s.fixups ++ fixups } := by
  have hlen : (s.data ++ bytes).length = s.data.length + bytes.length := List.length_append
  have hoff : (UInt32.ofNat s.data.length).toNat = s.data.length % 0x100000000 :=
    UInt32.toNat_ofNat'
  constructor
  · intro f hf
    simp only [hlen]
    rcases List.mem_append.mp hf with hf | hf
    · have := h.within f hf
      omega
    · obtain ⟨ho, hk⟩ := hfix f hf
      rw [ho, hk, hoff]
      omega
  · intro hsmall
    simp only [hlen] at hsmall
    refine List.pairwise_append.mpr ⟨h.ordered (by omega), ?_, ?_⟩
    · match fixups, hone with
      | [], _ => exact List.Pairwise.nil
      | [f], _ => exact List.pairwise_singleton _ f
    · intro f hf g hg
      have := h.within f hf
      rw [(hfix g hg).1, hoff]
      omega

namespace Assembly

structure Sound (a : Assembly) : Prop where
  current_lt : a.current < a.sections.length
  tidy : ∀ s ∈ a.sections, s.Tidy
  home : ∀ name d i, a.symbols.find? name = some d → d.home = some i →
    ∃ s, a.sections[i]? = some s ∧ d.offset.toNat ≤ s.data.length

theorem offset_eq {a : Assembly} {s : OpenSection} (h : a.sections[a.current]? = some s) :
    a.offset = UInt32.ofNat s.data.length := by
  rw [offset, h]
  rfl

theorem getElem?_append (a : Assembly) (bytes : Bytes) (fixups : List Fixup) (i : Nat) :
    (a.append bytes fixups).sections[i]? = a.sections[i]?.map fun s =>
      if a.current = i then { s with data := s.data ++ bytes, fixups := s.fixups ++ fixups }
      else s := by
  rw [append, List.getElem?_modify]
  rfl

theorem names_append (a : Assembly) (bytes : Bytes) (fixups : List Fixup) :
    (a.append bytes fixups).sections.map (·.name) = a.sections.map (·.name) := by
  apply List.ext_getElem?
  intro i
  rw [List.getElem?_map, getElem?_append, List.getElem?_map, Option.map_map]
  congr 1
  funext s
  dsimp only [Function.comp]
  split <;> rfl

/-- Entering a section opens at most a new one, at the end. -/
theorem enter_cases (a : Assembly) (name : String) :
    (∃ i < a.sections.length, a.enter name = { a with current := i }) ∨
      a.enter name = { a with
        sections := a.sections ++ [OpenSection.named name], current := a.sections.length } := by
  unfold enter
  split
  · next i hi => exact .inl ⟨i, (List.findIdx?_eq_some_iff_getElem.mp hi).1, rfl⟩
  · exact .inr rfl

theorem sound_start (localPc : Bool) : (start localPc).Sound where
  current_lt := Nat.zero_lt_one
  tidy s hs := by
    have hmem : s ∈ [OpenSection.named ".text"] := hs
    rw [List.mem_singleton.mp hmem]
    exact OpenSection.tidy_named _
  home name d i hd := nomatch hd

theorem getElem?_snoc {a : Assembly} {i : Nat} {s : OpenSection} (h : a.sections[i]? = some s)
    (t : OpenSection) : (a.sections ++ [t])[i]? = some s := by
  rw [List.getElem?_append_left (List.getElem?_eq_some_iff.mp h).1, h]

theorem label_eq_ok {a b : Assembly} {name : String} (h : a.label name = .ok b) :
    ∃ isGlobal, b = { a with
      symbols := a.symbols.insert name ⟨some a.current, a.offset, isGlobal⟩ } := by
  unfold label at h
  dsimp only at h
  split at h <;> cases h
  exact ⟨_, rfl⟩

namespace Sound
variable {a : Assembly} (ha : a.Sound)
include ha

theorem enter (name : String) : (a.enter name).Sound := by
  rcases a.enter_cases name with ⟨i, hi, he⟩ | he <;> rw [he]
  · exact ⟨hi, ha.tidy, ha.home⟩
  · refine ⟨by simp, ?_, ?_⟩
    · intro s hs
      rcases List.mem_append.mp hs with hs | hs
      · exact ha.tidy s hs
      · rw [List.mem_singleton.mp hs]
        exact OpenSection.tidy_named name
    · intro n d i hd hi
      obtain ⟨s, hs, hle⟩ := ha.home n d i hd hi
      exact ⟨s, getElem?_snoc hs _, hle⟩

theorem append {bytes : Bytes} {fixups : List Fixup} (hone : fixups.length ≤ 1)
    (hfix : ∀ f ∈ fixups, f.offset = a.offset ∧ f.kind.size = bytes.length) :
    (a.append bytes fixups).Sound := by
  refine ⟨?_, ?_, ?_⟩
  · rw [Assembly.append, List.length_modify]
    exact ha.current_lt
  · intro s hs
    obtain ⟨i, hi⟩ := List.mem_iff_getElem?.mp hs
    rw [getElem?_append] at hi
    obtain ⟨t, ht, rfl⟩ := Option.map_eq_some_iff.mp hi
    have htidy := ha.tidy t (List.mem_of_getElem? ht)
    split
    · next hc =>
      subst hc
      rw [offset_eq ht] at hfix
      exact htidy.append hone hfix
    · exact htidy
  · intro n d i hd hi
    obtain ⟨s, hs, hle⟩ := ha.home n d i hd hi
    refine ⟨_, by rw [getElem?_append, hs]; rfl, ?_⟩
    split
    · rw [List.length_append]
      omega
    · exact hle

theorem label {b : Assembly} {name : String} (h : a.label name = .ok b) : b.Sound := by
  obtain ⟨isGlobal, rfl⟩ := label_eq_ok h
  refine ⟨ha.current_lt, ha.tidy, ?_⟩
  intro n d i hd hi
  by_cases hn : n = name
  · subst hn
    rw [NameMap.find?_insert_self] at hd
    cases hd
    cases hi
    have hcur := List.getElem?_eq_getElem ha.current_lt
    refine ⟨_, hcur, ?_⟩
    rw [offset_eq hcur, UInt32.toNat_ofNat']
    exact Nat.mod_le _ _
  · rw [NameMap.find?_insert_of_ne _ _ hn] at hd
    exact ha.home n d i hd hi

theorem makeGlobal (name : String) : (a.makeGlobal name).Sound := by
  refine ⟨ha.current_lt, ha.tidy, ?_⟩
  intro n d i hd hi
  unfold Assembly.makeGlobal at hd ⊢
  by_cases hn : n = name
  · subst hn
    rw [NameMap.find?_insert_self] at hd
    cases hd
    cases hk : a.symbols.find? n with
    | none => simp [hk] at hi
    | some known =>
      simp only [hk, Option.getD_some] at hi ⊢
      exact ha.home n known i hk hi
  · rw [NameMap.find?_insert_of_ne _ _ hn] at hd
    exact ha.home n d i hd hi

end Sound

theorem Step.sound {a b : Assembly} (h : Step a b) (ha : a.Sound) : b.Sound := by
  cases h with
  | enter name => exact ha.enter name
  | append bytes fixups hone hfix => exact ha.append hone hfix
  | label name h => exact ha.label h
  | makeGlobal name => exact ha.makeGlobal name

theorem Reaches.sound {a b : Assembly} (h : Reaches a b) (ha : a.Sound) : b.Sound := by
  induction h with
  | refl => exact ha
  | tail _ hstep ih => exact hstep.sound ih

theorem Step.localPc_eq {a b : Assembly} (h : Step a b) : b.localPc = a.localPc := by
  cases h with
  | enter name => rcases a.enter_cases name with ⟨i, -, he⟩ | he <;> rw [he]
  | append bytes fixups hone hfix => rfl
  | label name h =>
    obtain ⟨isGlobal, rfl⟩ := label_eq_ok h
    rfl
  | makeGlobal name => rfl

theorem Reaches.localPc_eq {a b : Assembly} (h : Reaches a b) : b.localPc = a.localPc := by
  induction h with
  | refl => rfl
  | tail _ hstep ih => exact hstep.localPc_eq.trans ih

/-- A section is opened once for its name. -/
theorem Step.nodup_names {a b : Assembly} (h : Step a b) (ha : (a.sections.map (·.name)).Nodup) :
    (b.sections.map (·.name)).Nodup := by
  cases h with
  | enter name =>
    unfold Assembly.enter
    split
    · exact ha
    · next hnew =>
      have hfresh : ∀ s ∈ a.sections, s.name ≠ name := by simpa using hnew
      rw [List.map_append, List.nodup_append]
      refine ⟨ha, List.pairwise_singleton _ _, ?_⟩
      intro n hmem m hm
      obtain ⟨s, hs, rfl⟩ := List.mem_map.mp hmem
      rw [List.mem_singleton.mp hm]
      exact hfresh s hs
  | append bytes fixups hone hfix =>
    rw [names_append]
    exact ha
  | label name h =>
    obtain ⟨isGlobal, rfl⟩ := label_eq_ok h
    exact ha
  | makeGlobal name => exact ha

theorem Reaches.nodup_names {a b : Assembly} (h : Reaches a b)
    (ha : (a.sections.map (·.name)).Nodup) : (b.sections.map (·.name)).Nodup := by
  induction h with
  | refl => exact ha
  | tail _ hstep ih => exact hstep.nodup_names ih

/-- Fixups that a step adds to a section lie behind the data that was there. -/
theorem Step.later_fixups {a b : Assembly} (h : Step a b) {i : Nat} {s : OpenSection}
    (hs : a.sections[i]? = some s) :
    ∃ t later, b.sections[i]? = some t ∧ s.data <+: t.data ∧ t.fixups = s.fixups ++ later ∧
      (t.data.length < 0x100000000 → ∀ f ∈ later, s.data.length ≤ f.offset.toNat) := by
  cases h with
  | enter name =>
    rcases a.enter_cases name with ⟨j, -, he⟩ | he <;> rw [he]
    · exact ⟨s, [], hs, List.prefix_rfl, by simp, by simp⟩
    · exact ⟨s, [], getElem?_snoc hs _, List.prefix_rfl, by simp, by simp⟩
  | append bytes fixups hone hfix =>
    by_cases hi : a.current = i
    · refine ⟨_, fixups, by rw [getElem?_append, hs, Option.map_some, if_pos hi],
        List.prefix_append _ _, rfl, ?_⟩
      intro hlen f hf
      subst hi
      rw [List.length_append] at hlen
      rw [(hfix f hf).1, offset_eq hs, UInt32.toNat_ofNat']
      omega
    · exact ⟨s, [], by rw [getElem?_append, hs, Option.map_some, if_neg hi], List.prefix_rfl,
        by simp, by simp⟩
  | label name h =>
    obtain ⟨isGlobal, rfl⟩ := label_eq_ok h
    exact ⟨s, [], hs, List.prefix_rfl, by simp, by simp⟩
  | makeGlobal name => exact ⟨s, [], hs, List.prefix_rfl, by simp, by simp⟩

theorem Reaches.later_fixups {a b : Assembly} (h : Reaches a b) {i : Nat} {s : OpenSection}
    (hs : a.sections[i]? = some s) :
    ∃ t later, b.sections[i]? = some t ∧ s.data <+: t.data ∧ t.fixups = s.fixups ++ later ∧
      (t.data.length < 0x100000000 → ∀ f ∈ later, s.data.length ≤ f.offset.toNat) := by
  induction h with
  | refl => exact ⟨s, [], hs, List.prefix_rfl, by simp, by simp⟩
  | tail _ hstep ih =>
    obtain ⟨t, later, ht, hd, hf, hbehind⟩ := ih
    obtain ⟨u, later', hu, hd', hf', hbehind'⟩ := hstep.later_fixups ht
    refine ⟨u, later ++ later', hu, hd.trans hd', by rw [hf', hf, List.append_assoc], ?_⟩
    intro hlen f hmem
    have := hd.length_le
    have := hd'.length_le
    rcases List.mem_append.mp hmem with hmem | hmem
    · exact hbehind (by omega) f hmem
    · have := hbehind' hlen f hmem
      omega

/-- Every section of `a` is still in `b`, with more at its end. -/
def Grows (a b : Assembly) : Prop :=
  ∀ (i : Nat) (s : OpenSection), a.sections[i]? = some s →
    ∃ t, b.sections[i]? = some t ∧ s.data <+: t.data ∧ s.fixups <+: t.fixups

theorem Reaches.grows {a b : Assembly} (h : Reaches a b) : a.Grows b := by
  intro i s hs
  obtain ⟨t, later, ht, hd, hf, -⟩ := h.later_fixups hs
  exact ⟨t, ht, hd, hf ▸ List.prefix_append _ _⟩

/-- An instruction that can be encoded is appended. -/
theorem inst_of_encode {a : Assembly} (ha : a.Sound) {i : Inst} {word : UInt32}
    {fixups : List Fixup} (hi : i.encode = .ok (word, fixups)) :
    ∃ b, a.inst i = .ok b ∧ b.current = a.current ∧ b.offset = a.offset + 4 := by
  have hsec := List.getElem?_eq_getElem ha.current_lt
  have hinst : a.inst i = .ok (a.append (wordBytes word)
      (fixups.map fun f => { f with offset := f.offset + a.offset })) := by
    unfold inst
    rw [hi]
  refine ⟨_, hinst, rfl, ?_⟩
  have hnext := getElem?_append a (wordBytes word)
    (fixups.map fun f => { f with offset := f.offset + a.offset }) a.current
  rw [hsec, Option.map_some, if_pos rfl] at hnext
  rw [offset_eq hnext, offset_eq hsec, List.length_append, UInt32.ofNat_add]
  rfl

/-- An instruction that was appended stays where it was put, with its fixups. -/
theorem inst_stays {a b c : Assembly} (ha : a.Sound) {i : Inst} {word : UInt32}
    {fixups : List Fixup} (hi : i.encode = .ok (word, fixups)) (h : a.inst i = .ok b)
    (hc : Reaches b c) :
    ∃ s t rest, a.sections[a.current]? = some s ∧ c.sections[a.current]? = some t ∧
      s.data ++ wordBytes word ++ rest = t.data ∧
      ∀ f ∈ fixups, { f with offset := f.offset + a.offset } ∈ t.fixups := by
  have hs := List.getElem?_eq_getElem ha.current_lt
  unfold inst at h
  rw [hi] at h
  cases h
  have hb := getElem?_append a (wordBytes word)
    (fixups.map fun f => { f with offset := f.offset + a.offset }) a.current
  rw [hs, Option.map_some, if_pos rfl] at hb
  obtain ⟨t, ht, ⟨rest, hdata⟩, hfix⟩ := hc.grows a.current _ hb
  refine ⟨_, t, rest, hs, ht, hdata, ?_⟩
  intro f hf
  exact hfix.subset (List.mem_append_right _ (List.mem_map_of_mem hf))

/-- A value that was appended stays where it was put. Later fixups do not touch a constant, and the
fixup of any other value stays. -/
theorem value_stays {a b c : Assembly} (ha : a.Sound) {e : Expr} {size : Nat}
    (h : a.value e size = .ok b) (hc : Reaches b c) :
    ∃ s t bytes rest, a.sections[a.current]? = some s ∧ c.sections[a.current]? = some t ∧
      s.data ++ bytes ++ rest = t.data ∧ bytes.length = size ∧
      ((∃ v, e.constant? = some v ∧ bytes = leBytes size v.toUInt64.toNat ∧
          (t.data.length < 0x100000000 → ∀ f ∈ t.fixups, s.data.length + size ≤ f.offset.toNat ∨
            f.offset.toNat + f.kind.size ≤ s.data.length)) ∨
        ∃ kind, e.constant? = none ∧ FixupKind.data? size = some kind ∧
          ⟨a.offset, e, kind⟩ ∈ t.fixups) := by
  have hs := List.getElem?_eq_getElem ha.current_lt
  unfold value at h
  split at h
  · cases h
  · next kind hkind =>
    split at h
    · next v hv =>
      cases h
      have hb := getElem?_append a (leBytes size v.toUInt64.toNat) [] a.current
      rw [hs, Option.map_some, if_pos rfl] at hb
      obtain ⟨t, later, ht, ⟨rest, hdata⟩, hfix, hbehind⟩ := hc.later_fixups hb
      refine ⟨_, t, _, rest, hs, ht, hdata, length_leBytes _ _, .inl ⟨v, hv, rfl, ?_⟩⟩
      intro hlen f hf
      rw [hfix, List.append_nil] at hf
      rcases List.mem_append.mp hf with hf | hf
      · exact .inr ((ha.tidy _ (List.getElem_mem ha.current_lt)).within f hf)
      · have hge := hbehind hlen f hf
        rw [List.length_append, length_leBytes] at hge
        exact .inl hge
    · next hv =>
      cases h
      have hb := getElem?_append a (List.replicate size 0) [⟨a.offset, e, kind⟩] a.current
      rw [hs, Option.map_some, if_pos rfl] at hb
      obtain ⟨t, ht, ⟨rest, hdata⟩, hfix⟩ := hc.grows a.current _ hb
      exact ⟨_, t, _, rest, hs, ht, hdata, List.length_replicate, .inr ⟨kind, hv, hkind,
        hfix.subset (List.mem_append_right _ List.mem_cons_self)⟩⟩

end Assembly

end Dlx
