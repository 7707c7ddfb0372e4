import Dlx.Proofs.Link.Completion

/-!
# Early and late resolution agree

Programs can be assembled with the distances within a section resolved at once, or with all of them
left to the linker. Nothing but the settling of fixups reads that choice, so both runs make the same
units, and by `Linker.link_finished_iff` the units complete in the same way.

Results:
* `statements_withMode`: a program makes the same unit in both modes.
* `build_eq_ok_iff`: a whole build, in terms of the units of one mode.
* `early_build_iff_late_build`: builds in both modes succeed together, with the same image.
-/
namespace Dlx

namespace Assembly

/-! ## The mode of a unit -/

/-- The unit with distances resolved early or late. -/
def withMode (localPc : Bool) (a : Assembly) : Assembly := { a with localPc := localPc }

variable (m : Bool)

theorem enter_withMode (a : Assembly) (name : String) :
    (a.withMode m).enter name = (a.enter name).withMode m := by
  unfold enter withMode
  dsimp only
  split <;> rfl

theorem start_eq_withMode : start m = (start true).withMode m := rfl

theorem label_withMode (a : Assembly) (name : String) :
    (a.withMode m).label name = (a.label name).map (withMode m) := by
  unfold label withMode
  dsimp only
  split <;> rfl

theorem inst_withMode (a : Assembly) (i : Inst) :
    (a.withMode m).inst i = (a.inst i).map (withMode m) := by
  unfold inst
  cases i.encode <;> rfl

theorem value_withMode (a : Assembly) (e : Expr) (size : Nat) :
    (a.withMode m).value e size = (a.value e size).map (withMode m) := by
  unfold value
  cases FixupKind.data? size with
  | none => rfl
  | some kind => cases e.constant? <;> rfl

theorem values_withMode (a : Assembly) (size : Nat) (es : List Expr) :
    (a.withMode m).values size es = (a.values size es).map (withMode m) := by
  induction es generalizing a with
  | nil => rfl
  | cons e rest ih =>
    simp only [values, value_withMode]
    cases a.value e size with
    | error err => rfl
    | ok b => exact ih b

theorem statement_withMode (a : Assembly) (s : Statement) :
    (a.withMode m).statement s = (a.statement s).map (withMode m) := by
  cases s with
  | label name => exact label_withMode m a name
  | enter name => exact congrArg Except.ok (enter_withMode m a name)
  | makeGlobal name => rfl
  | data size es => exact values_withMode m a size es
  | inst i => exact inst_withMode m a i

theorem statements_withMode (a : Assembly) (program : List Statement) :
    (a.withMode m).statements program = (a.statements program).map (withMode m) := by
  induction program generalizing a with
  | nil => rfl
  | cons s rest ih =>
    simp only [statements, statement_withMode]
    cases a.statement s with
    | error err => rfl
    | ok b => exact ih b

theorem sound_map_withMode {units : List Assembly} (hs : ∀ a ∈ units, a.Sound) :
    ∀ a ∈ units.map (withMode m), a.Sound := by
  intro a ha
  obtain ⟨b, hb, rfl⟩ := List.mem_map.mp ha
  exact ⟨(hs b hb).current_lt, (hs b hb).tidy, (hs b hb).home⟩

end Assembly

/-! ## Lists of units -/

theorem mapM_bind_eq_ok_iff {α β γ ε : Type} {f : α → Except ε β} {g : β → Except ε γ}
    {xs : List α} {zs : List γ} :
    (xs.mapM fun x => f x >>= g) = .ok zs ↔ ∃ ys, xs.mapM f = .ok ys ∧ ys.mapM g = .ok zs := by
  induction xs generalizing zs with
  | nil => simp [pure, Except.pure]
  | cons x xs ih =>
    simp only [List.mapM_cons, Except.bind_eq_ok_iff, ih]
    constructor
    · rintro ⟨z, ⟨y, hy, hz⟩, rest, ⟨ys, hys, hzs⟩, h⟩
      refine ⟨y :: ys, ⟨y, hy, ys, hys, rfl⟩, ?_⟩
      rw [List.mapM_cons, hz, hzs]
      exact h
    · rintro ⟨_, ⟨y, hy, ys, hys, hcons⟩, h⟩
      cases hcons
      simp only [List.mapM_cons, Except.bind_eq_ok_iff] at h
      obtain ⟨z, hz, rest, hzs, h⟩ := h
      exact ⟨z, ⟨y, hy, hz⟩, rest, ⟨ys, hys, hzs⟩, h⟩

theorem forall_of_mapM {α β ε : Type} {f : α → Except ε β} {P : β → Prop} {xs : List α} {ys : List β}
    (h : xs.mapM f = .ok ys) (hP : ∀ x y, f x = .ok y → P y) : ∀ y ∈ ys, P y := by
  induction xs generalizing ys with
  | nil => cases h; simp
  | cons x xs ih =>
    simp only [List.mapM_cons, Except.bind_eq_ok_iff] at h
    obtain ⟨y, hy, rest, hrest, h⟩ := h
    cases h
    exact List.forall_mem_cons.mpr ⟨hP x y hy, ih hrest⟩

namespace Linker

theorem ofUnits_withMode (m : Bool) (units : List Assembly) (absolutes : NameMap UInt32) :
    ofUnits (units.map (Assembly.withMode m)) absolutes = ofUnits units absolutes := by
  unfold ofUnits
  rw [List.map_map]
  rfl

theorem completed_withMode (m : Bool) (units : List Assembly) (absolutes : NameMap UInt32)
    (base : UInt32) :
    completed (units.map (Assembly.withMode m)) absolutes base = completed units absolutes base := by
  unfold completed
  rw [ofUnits_withMode]
  apply List.ext_getElem?
  intro k
  simp only [List.getElem?_mapIdx, List.getElem?_map, Option.map_map]
  rfl

theorem allResolve_withMode (m : Bool) (units : List Assembly) (absolutes : NameMap UInt32)
    (base : UInt32) :
    AllResolve (units.map (Assembly.withMode m)) absolutes base ↔ AllResolve units absolutes base := by
  unfold AllResolve
  rw [ofUnits_withMode]
  constructor
  · intro h k a ha
    exact h k (a.withMode m) (by rw [List.getElem?_map, ha]; rfl)
  · intro h k b hb
    rw [List.getElem?_map] at hb
    obtain ⟨a, ha, rfl⟩ := Option.map_eq_some_iff.mp hb
    exact h k a ha

/-- Whether units can be finished and linked, and to what, does not depend on the mode. -/
theorem link_finished_withMode {units : List Assembly} {absolutes : NameMap UInt32}
    (hs : ∀ a ∈ units, a.Sound) {options : LinkSettings}
    (hsize : options.base.toNat + (layout (ofUnits units absolutes).objects).bytes.length <
      0x100000000) {image : Image} (m m' : Bool) :
    (∀ a ∈ units.map (Assembly.withMode m), a.AllSettle) ∧
        (ofFinished (units.map (Assembly.withMode m)) absolutes).link options = .ok image ↔
      (∀ a ∈ units.map (Assembly.withMode m'), a.AllSettle) ∧
        (ofFinished (units.map (Assembly.withMode m')) absolutes).link options = .ok image := by
  rw [link_finished_iff (Assembly.sound_map_withMode m hs) (by rwa [ofUnits_withMode]),
    link_finished_iff (Assembly.sound_map_withMode m' hs) (by rwa [ofUnits_withMode]),
    ofUnits_withMode, ofUnits_withMode,
    allResolve_withMode, allResolve_withMode, completed_withMode, completed_withMode]

end Linker

/-! ## Builds -/

/-- The object of a program. -/
def assembleProgram (localPc : Bool) (program : List Statement) :
    Except AsmError (Object RelocType) := do
  (← (Assembly.start localPc).statements program).finish

/-- Assembles programs and links their objects. -/
def build (localPc : Bool) (programs : List (List Statement)) (absolutes : NameMap UInt32)
    (options : LinkSettings) : Except (AsmError ⊕ LinkError) Image := do
  let objects ← (programs.mapM (assembleProgram localPc)).mapError .inl
  ((Linker.mk (objects.map Object.withCodes) absolutes).link options).mapError .inr

theorem assembleProgram_eq (localPc : Bool) (program : List Statement) :
    assembleProgram localPc program =
      (Assembly.start true).statements program >>= fun a => (a.withMode localPc).finish := by
  unfold assembleProgram
  rw [Assembly.start_eq_withMode, Assembly.statements_withMode]
  cases (Assembly.start true).statements program <;> rfl

theorem sound_of_mapM {programs : List (List Statement)} {units : List Assembly}
    (h : programs.mapM (Assembly.start true).statements = .ok units) : ∀ a ∈ units, a.Sound :=
  forall_of_mapM h fun _ _ ha => (Assembly.statements_reaches ha).sound (Assembly.sound_start true)

theorem build_eq_ok_iff {localPc : Bool} {programs : List (List Statement)}
    {absolutes : NameMap UInt32} {options : LinkSettings} {image : Image} :
    build localPc programs absolutes options = .ok image ↔
      ∃ units, programs.mapM (Assembly.start true).statements = .ok units ∧
        (∀ a ∈ units.map (Assembly.withMode localPc), a.AllSettle) ∧
        (Linker.ofFinished (units.map (Assembly.withMode localPc)) absolutes).link options =
          .ok image := by
  have hfinished : ∀ units : List Assembly,
      (units.map Assembly.object).map Object.withCodes = (Linker.ofFinished units absolutes).objects := by
    intro units
    exact List.map_map
  unfold build
  simp only [Except.bind_eq_ok_iff, Except.mapError_eq_ok_iff]
  rw [funext (assembleProgram_eq localPc)]
  simp only [mapM_bind_eq_ok_iff]
  constructor
  · rintro ⟨objects, ⟨units, hunits, hfin⟩, hlink⟩
    rw [← Function.comp_def Assembly.finish, ← List.mapM_map,
      Assembly.mapM_finish_eq_ok_iff (Assembly.sound_map_withMode localPc (sound_of_mapM hunits))] at hfin
    obtain ⟨hset, rfl⟩ := hfin
    rw [hfinished] at hlink
    exact ⟨units, hunits, hset, hlink⟩
  · rintro ⟨units, hunits, hset, hlink⟩
    have hs := Assembly.sound_map_withMode localPc (sound_of_mapM hunits)
    refine ⟨(units.map (Assembly.withMode localPc)).map Assembly.object, ⟨units, hunits, ?_⟩, ?_⟩
    · rw [← Function.comp_def Assembly.finish, ← List.mapM_map]
      exact (Assembly.mapM_finish_eq_ok_iff hs).mpr ⟨hset, rfl⟩
    · rw [hfinished]
      exact hlink

theorem build_of_build {programs : List (List Statement)} {absolutes : NameMap UInt32}
    {options : LinkSettings} {image : Image}
    (hsize : options.base.toNat + image.bytes.length < 0x100000000) {m : Bool} (m' : Bool)
    (h : build m programs absolutes options = .ok image) :
    build m' programs absolutes options = .ok image := by
  obtain ⟨units, hunits, h⟩ := build_eq_ok_iff.mp h
  have hs := sound_of_mapM hunits
  have hlen := Linker.length_bytes_of_link_ofFinished (Assembly.sound_map_withMode m hs) h.2
  rw [Linker.ofUnits_withMode] at hlen
  rw [hlen] at hsize
  exact build_eq_ok_iff.mpr
    ⟨units, hunits, (Linker.link_finished_withMode hs hsize m m').mp h⟩

/-- Resolving distances early or late gives the same image, if the image ends in the address space:
one build succeeds when the other does. -/
theorem early_build_iff_late_build (programs : List (List Statement)) (absolutes : NameMap UInt32)
    (options : LinkSettings) (image : Image)
    (hsize : options.base.toNat + image.bytes.length < 0x100000000) :
    build true programs absolutes options = .ok image ↔
      build false programs absolutes options = .ok image :=
  ⟨build_of_build hsize false, build_of_build hsize true⟩

/-- A loop that ends with a branch to its own start, and a call into another unit. -/
def loopAndCall : List (List Statement) :=
  [[.label "loop", .inst ⟨.jal, [.expr (.sym "f")]⟩,
      .inst ⟨.bnez, [.reg ⟨1⟩, .expr (.sym "loop")]⟩],
    [.makeGlobal "f", .label "f", .inst ⟨.jr, [.reg (.ofBits 31)]⟩]]

theorem early_build_iff_late_build_loopAndCall :
    ∃ image, 0x1000 + image.bytes.length < 0x100000000 ∧
      build true loopAndCall .empty ⟨0x1000, none⟩ = .ok image ∧
      build false loopAndCall .empty ⟨0x1000, none⟩ = .ok image := by
  have hearly : ∃ image, build true loopAndCall .empty ⟨0x1000, none⟩ = .ok image ∧
      0x1000 + image.bytes.length < 0x100000000 := ⟨_, rfl, by decide⟩
  obtain ⟨image, h, hsize⟩ := hearly
  exact ⟨image, hsize, h,
    (early_build_iff_late_build loopAndCall .empty ⟨0x1000, none⟩ image hsize).mp h⟩

end Dlx
