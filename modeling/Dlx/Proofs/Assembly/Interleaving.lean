import Dlx.Proofs.Assembly.Emission
import Dlx.Proofs.Assembly.Sessions

/-!
# Operations in two sections

An operation that switches no section adds its piece to the current one and may enter a name into
the table. Pieces for two sections do not meet. The names do, but what two operations make of an
entry is the same in either order, unless both define it, and then the second one fails. So two
blocks of operations, each in a section of its own, can be exchanged.

Results:
* `perform_eq_ok_iff`: everything that such an operation can do.
* `perform_swap`: two operations in different sections can be exchanged.
* `blocks_swap`: so can two blocks of them.
* `interleaving_irrelevant`: whichever block comes first, no operation fails, and what follows a
  switch gives the same answers and the same object.
-/
namespace Dlx.Assembly

/-! ## What an operation does -/

/-- The operation leaves the current section current. -/
def Operation.stays : Operation → Bool
  | .enter _ => false
  | _ => true

/-- The entry of a name once it has a label. -/
def labelled (home : Nat) (offset : UInt32) (known? : Option KnownSymbol) : KnownSymbol :=
  ⟨some home, offset, (known?.getD ⟨none, 0, false⟩).isGlobal⟩

/-- The entry of a name once it is global. -/
def globalized (known? : Option KnownSymbol) : KnownSymbol :=
  { known?.getD ⟨none, 0, true⟩ with isGlobal := true }

/-- What an operation that succeeds makes of the table of symbols, if the next byte of its section
`home` is at `offset`. -/
inductive Operation.Enters (home : Nat) (offset : UInt32) :
    Operation → SymbolTable → SymbolTable → Prop
  | label {name : String} {t : SymbolTable}
      (h : ((t.find? name).getD ⟨none, 0, false⟩).home = none) :
      Enters home offset (.label name) t (t.update name (labelled home offset))
  | makeGlobal {name : String} {t : SymbolTable} :
      Enters home offset (.makeGlobal name) t (t.update name globalized)
  | inst {i : Inst} {t : SymbolTable} {out : UInt32 × List Fixup} (h : i.encode = .ok out) :
      Enters home offset (.inst i) t t
  | value {e : Expr} {size : Nat} {t : SymbolTable} {kind : FixupKind}
      (h : FixupKind.data? size = some kind) : Enters home offset (.value e size) t t
  | bytes {bs : Bytes} {t : SymbolTable} : Enters home offset (.bytes bs) t t

/-- The assembly with a piece added to its current section. -/
def extended (a : Assembly) (p : Piece) : Assembly :=
  { a with sections := a.sections.modify a.current (·.extend [p]) }

theorem append_piece (a : Assembly) (p : Piece) :
    a.append p.bytes (p.fixupsAt a.offset) = a.extended p := by
  have hsections : (a.append p.bytes (p.fixupsAt a.offset)).sections = (a.extended p).sections := by
    apply List.ext_getElem?
    intro i
    rw [getElem?_append, extended, List.getElem?_modify]
    by_cases hi : a.current = i
    · subst hi
      cases hs : a.sections[a.current]? with
      | none => rfl
      | some s => simp [offset_eq hs, OpenSection.extend, bytesOf, fixupsFrom]
    · simp [hi]
  exact congrArg (fun sections => { a with sections := sections }) hsections

theorem extended_ofBytes_nil (a : Assembly) : a.extended (.ofBytes []) = a := by
  rw [← append_piece]
  exact a.append_nil

/-- All that an operation can do which stays in the current section. -/
theorem perform_eq_ok_iff {a b : Assembly} {op : Operation} (hop : op.stays) :
    a.perform op = .ok b ↔
      ∃ t, op.Enters a.current a.offset a.symbols t ∧
        b = { a.extended op.piece with symbols := t } := by
  cases op with
  | enter name => cases hop
  | label name =>
    rw [Operation.piece, extended_ofBytes_nil, perform, label]
    dsimp only
    constructor
    · intro h
      split at h <;> cases h
      next hnone => exact ⟨_, .label (Option.not_isSome_iff_eq_none.mp hnone), rfl⟩
    · rintro ⟨_, hentered, rfl⟩
      cases hentered with
      | label hnone =>
        simp only [hnone, Option.isSome_none, Bool.false_eq_true, if_false]
        rfl
  | makeGlobal name =>
    rw [Operation.piece, extended_ofBytes_nil]
    constructor
    · rintro ⟨⟩
      exact ⟨_, .makeGlobal, rfl⟩
    · rintro ⟨_, hentered, rfl⟩
      cases hentered
      rfl
  | inst i =>
    rw [Operation.piece, ← append_piece]
    constructor
    · intro h
      obtain ⟨word, fixups, hi⟩ := encode_of_inst h
      rw [a.perform_inst hi] at h
      cases h
      exact ⟨_, .inst hi, rfl⟩
    · rintro ⟨_, hentered, rfl⟩
      cases hentered with
      | inst hi => exact a.perform_inst hi
  | value e size =>
    rw [Operation.piece, ← append_piece]
    constructor
    · intro h
      cases hk : FixupKind.data? size with
      | none =>
        rw [perform, value, hk] at h
        cases h
      | some kind =>
        rw [a.perform_value hk e] at h
        cases h
        exact ⟨_, .value hk, rfl⟩
    · rintro ⟨_, hentered, rfl⟩
      cases hentered with
      | value hk => exact a.perform_value hk e
  | bytes bs =>
    rw [Operation.piece, ← append_piece]
    constructor
    · rintro ⟨⟩
      exact ⟨_, .bytes, rfl⟩
    · rintro ⟨_, hentered, rfl⟩
      cases hentered
      rfl

/-! ## Two operations -/

/-- A name that becomes global is defined if it was. -/
theorem home_update_globalized (t : SymbolTable) (name other : String) :
    (((t.update name globalized).find? other).getD ⟨none, 0, false⟩).home =
      ((t.find? other).getD ⟨none, 0, false⟩).home := by
  by_cases hn : other = name
  · rw [hn, NameMap.find?_update_self]
    cases t.find? name <;> rfl
  · rw [NameMap.find?_update_of_ne _ _ hn]

/-- A label keeps its name global, and a name that becomes global keeps its label. -/
theorem update_globalized_labelled (t : SymbolTable) (name name' : String) (home : Nat)
    (offset : UInt32) :
    (t.update name globalized).update name' (labelled home offset) =
      (t.update name' (labelled home offset)).update name globalized := by
  by_cases hn : name = name'
  · rw [hn, NameMap.update_update, NameMap.update_update]
    rfl
  · exact NameMap.update_comm t hn _ _

/-- Two operations make the same of the table in either order. If both define a name, the second one
finds it defined. -/
theorem Operation.Enters.swap {i j : Nat} {m n : UInt32} {op op' : Operation}
    {t t₁ t₂ : SymbolTable} (h : op.Enters i m t t₁) (h' : op'.Enters j n t₁ t₂) :
    ∃ t', op'.Enters j n t t' ∧ op.Enters i m t' t₂ := by
  cases h with
  | inst h => exact ⟨t₂, h', .inst h⟩
  | value h => exact ⟨t₂, h', .value h⟩
  | bytes => exact ⟨t₂, h', .bytes⟩
  | @label name _ h =>
    cases h' with
    | inst h' => exact ⟨t, .inst h', .label h⟩
    | value h' => exact ⟨t, .value h', .label h⟩
    | bytes => exact ⟨t, .bytes, .label h⟩
    | @label name' _ h' =>
      by_cases hn : name = name'
      · subst hn
        rw [NameMap.find?_update_self] at h'
        cases h'
      · rw [NameMap.find?_update_of_ne _ _ (Ne.symm hn)] at h'
        rw [NameMap.update_comm t hn]
        exact ⟨_, .label h', .label (by rwa [NameMap.find?_update_of_ne _ _ hn])⟩
    | @makeGlobal name' _ =>
      rw [← update_globalized_labelled]
      exact ⟨_, .makeGlobal, .label (by rwa [home_update_globalized])⟩
  | @makeGlobal name _ =>
    cases h' with
    | inst h' => exact ⟨t, .inst h', .makeGlobal⟩
    | value h' => exact ⟨t, .value h', .makeGlobal⟩
    | bytes => exact ⟨t, .bytes, .makeGlobal⟩
    | @label name' _ h' =>
      rw [home_update_globalized] at h'
      rw [update_globalized_labelled]
      exact ⟨_, .label h', .makeGlobal⟩
    | @makeGlobal name' _ =>
      by_cases hn : name = name'
      · subst hn
        exact ⟨_, .makeGlobal, .makeGlobal⟩
      · rw [NameMap.update_comm t hn]
        exact ⟨_, .makeGlobal, .makeGlobal⟩

/-- The assembly with the section of an index current. -/
def turned (a : Assembly) (i : Nat) : Assembly := { a with current := i }

theorem turned_of_perform {a b : Assembly} {i : Nat} {op : Operation} (hop : op.stays)
    (h : (a.turned i).perform op = .ok b) : b.turned i = b := by
  obtain ⟨t, -, rfl⟩ := (perform_eq_ok_iff hop).mp h
  rfl

/-- The offset in a section does not count what is added to another one. -/
theorem offset_turned {a : Assembly} {i j : Nat} (hij : i ≠ j) (p : Piece) (t : SymbolTable) :
    (turned { (a.turned i).extended p with symbols := t } j).offset = (a.turned j).offset := by
  have hsection : (a.sections.modify i (·.extend [p]))[j]? = a.sections[j]? := by
    simp [hij]
  exact congrArg (fun s => UInt32.ofNat ((s.map (·.data.length)).getD 0)) hsection

/-- Two operations in different sections can be exchanged. -/
theorem perform_swap {a b c : Assembly} {i j : Nat} (hij : i ≠ j) {op op' : Operation}
    (hop : op.stays) (hop' : op'.stays) (h : (a.turned i).perform op = .ok b)
    (h' : (b.turned j).perform op' = .ok c) :
    ∃ b', (a.turned j).perform op' = .ok b' ∧ (b'.turned i).perform op = .ok (c.turned i) := by
  obtain ⟨t, ht, rfl⟩ := (perform_eq_ok_iff hop).mp h
  obtain ⟨t', ht', rfl⟩ := (perform_eq_ok_iff hop').mp h'
  rw [offset_turned hij] at ht'
  obtain ⟨t'', hfirst, hsecond⟩ := ht.swap ht'
  refine ⟨_, (perform_eq_ok_iff hop').mpr ⟨t'', hfirst, rfl⟩,
    (perform_eq_ok_iff hop).mpr ⟨t', ?_, ?_⟩⟩
  · rw [offset_turned (Ne.symm hij)]
    exact hsecond
  · have hsections := List.modify_modify_ne (fun s : OpenSection => s.extend [op.piece])
      (fun s => s.extend [op'.piece]) a.sections hij
    exact congrArg (fun sections => Assembly.mk a.localPc sections i t') hsections

/-! ## Two blocks -/

theorem block_swap {a b c : Assembly} {i j : Nat} (hij : i ≠ j) {op : Operation} (hop : op.stays)
    {v : List Operation} (hv : ∀ x ∈ v, x.stays) (h : (a.turned i).perform op = .ok b)
    (h' : v.foldlM perform (b.turned j) = .ok c) :
    ∃ b', v.foldlM perform (a.turned j) = .ok b' ∧
      (b'.turned i).perform op = .ok (c.turned i) := by
  induction v generalizing a b with
  | nil =>
    cases h'
    refine ⟨a.turned j, rfl, h.trans ?_⟩
    exact congrArg Except.ok (turned_of_perform hop h).symm
  | cons x rest ih =>
    obtain ⟨hx, hrest⟩ := List.forall_mem_cons.mp hv
    rw [List.foldlM_cons] at h' ⊢
    obtain ⟨d, hd, hc⟩ := Except.bind_eq_ok_iff.mp h'
    obtain ⟨a', ha', hd'⟩ := perform_swap hij hop hx h hd
    have hturned : (d.turned i).turned j = d := turned_of_perform hx hd
    obtain ⟨b', hb', hlast⟩ := ih hrest hd' (by rwa [hturned])
    rw [turned_of_perform hx ha'] at hb'
    exact ⟨b', Except.bind_eq_ok_iff.mpr ⟨a', ha', hb'⟩, hlast⟩

/-- Two blocks of operations in different sections can be exchanged. -/
theorem blocks_swap {a b c : Assembly} {i j : Nat} (hij : i ≠ j) {u v : List Operation}
    (hu : ∀ x ∈ u, x.stays) (hv : ∀ x ∈ v, x.stays) (h : u.foldlM perform (a.turned i) = .ok b)
    (h' : v.foldlM perform (b.turned j) = .ok c) :
    ∃ b', v.foldlM perform (a.turned j) = .ok b' ∧
      u.foldlM perform (b'.turned i) = .ok (c.turned i) := by
  induction u generalizing a with
  | nil =>
    cases h
    exact ⟨c, h', rfl⟩
  | cons op rest ih =>
    obtain ⟨hop, hrest⟩ := List.forall_mem_cons.mp hu
    rw [List.foldlM_cons] at h
    obtain ⟨d, hd, hb⟩ := Except.bind_eq_ok_iff.mp h
    rw [← turned_of_perform hop hd] at hb
    obtain ⟨e, he, hlast⟩ := ih hrest hb
    obtain ⟨b', hb', hfirst⟩ := block_swap hij hop hv hd he
    refine ⟨b', hb', ?_⟩
    rw [List.foldlM_cons]
    exact Except.bind_eq_ok_iff.mpr ⟨_, hfirst, hlast⟩

/-! ## Switching sections -/

theorem names_perform {a b : Assembly} {op : Operation} (hop : op.stays)
    (h : a.perform op = .ok b) : b.sections.map (·.name) = a.sections.map (·.name) := by
  obtain ⟨t, -, rfl⟩ := (perform_eq_ok_iff hop).mp h
  rw [← append_piece]
  exact a.names_append _ _

theorem names_block {a b : Assembly} {u : List Operation} (hu : ∀ x ∈ u, x.stays)
    (h : u.foldlM perform a = .ok b) : b.sections.map (·.name) = a.sections.map (·.name) := by
  induction u generalizing a with
  | nil =>
    cases h
    rfl
  | cons op rest ih =>
    obtain ⟨hop, hrest⟩ := List.forall_mem_cons.mp hu
    rw [List.foldlM_cons] at h
    obtain ⟨d, hd, hb⟩ := Except.bind_eq_ok_iff.mp h
    rw [ih hrest hb, names_perform hop hd]

theorem enter_of_mem {a : Assembly} {name : String} (h : name ∈ a.sections.map (·.name)) :
    a.enter name = a.turned ((a.sections.map (·.name)).idxOf name) := by
  obtain ⟨s, hs, hname⟩ := List.mem_map.mp h
  have hfind : a.sections.findIdx? (·.name = name) = some (a.sections.findIdx (·.name = name)) :=
    List.findIdx?_eq_some_of_exists ⟨s, hs, by simpa using hname⟩
  have hindex : (a.sections.map (·.name)).idxOf name = a.sections.findIdx (·.name = name) := by
    rw [List.idxOf, List.findIdx_map]
    rfl
  rw [enter, hfind, hindex, turned]

/-- A block that switches to an open section runs there. -/
theorem block_eq {a : Assembly} {names : List String} (hnames : a.sections.map (·.name) = names)
    {name : String} (h : name ∈ names) (ops : List Operation) :
    (Operation.enter name :: ops).foldlM perform a =
      ops.foldlM perform (a.turned (names.idxOf name)) := by
  subst hnames
  rw [← enter_of_mem h]
  rfl

/-- Which section was current does not matter to a switch. -/
theorem act_enter_turned (a : Assembly) (i : Nat) (name : String) :
    (a.turned i).act (.enter name) = a.act (.enter name) := by
  unfold act enter turned
  dsimp only

/-- A session without errors, as one computation. -/
theorem foldlM_perform_eq_ok_iff {a b : Assembly} {ops : List Operation} :
    ops.foldlM perform a = .ok b ↔
      (∀ x ∈ a.answers ops, x.error = none) ∧ a.after ops = b := by
  induction ops generalizing a with
  | nil => simp [answers, after, pure, Except.pure]
  | cons op rest ih =>
    rw [List.foldlM_cons, Except.bind_eq_ok_iff, answers, after, act_eq, List.forall_mem_cons]
    cases a.perform op with
    | error e => simp [reported]
    | ok c => simp [reported, ih]

/-- Sections can be filled in any order. If `A` and `B` are open and no operation fails when `u`
goes into `A` and then `v` into `B`, none fails the other way round, and whatever follows with a
switch has the same answers and ends in the same object or error. -/
theorem interleaving_irrelevant (a : Assembly) {A B : String} (hne : A ≠ B)
    (hA : A ∈ a.sections.map (·.name)) (hB : B ∈ a.sections.map (·.name)) {u v : List Operation}
    (hu : ∀ op ∈ u, op.stays) (hv : ∀ op ∈ v, op.stays)
    (h : ∀ x ∈ a.answers (.enter A :: u ++ .enter B :: v), x.error = none) :
    (∀ x ∈ a.answers (.enter B :: v ++ .enter A :: u), x.error = none) ∧
      ∀ name w,
        (a.after (.enter A :: u ++ .enter B :: v)).answers (.enter name :: w) =
          (a.after (.enter B :: v ++ .enter A :: u)).answers (.enter name :: w) ∧
        (a.after (.enter A :: u ++ .enter B :: v ++ .enter name :: w)).finish =
          (a.after (.enter B :: v ++ .enter A :: u ++ .enter name :: w)).finish := by
  let i := (a.sections.map (·.name)).idxOf A
  let j := (a.sections.map (·.name)).idxOf B
  have hij : i ≠ j := fun hsame => hne ((List.idxOf_inj hA).mp hsame)
  have hfirst := foldlM_perform_eq_ok_iff.mpr ⟨h, rfl⟩
  rw [List.foldlM_append] at hfirst
  obtain ⟨b, hb, hc⟩ := Except.bind_eq_ok_iff.mp hfirst
  rw [block_eq rfl hA] at hb
  have hnames : b.sections.map (·.name) = a.sections.map (·.name) :=
    names_block (a := a.turned i) hu hb
  rw [block_eq hnames hB] at hc
  obtain ⟨b', hb', hlast⟩ := blocks_swap hij hu hv hb hc
  have hnames' : b'.sections.map (·.name) = a.sections.map (·.name) :=
    names_block (a := a.turned j) hv hb'
  have hother : (Operation.enter B :: v ++ .enter A :: u).foldlM perform a =
      .ok ((a.after (.enter A :: u ++ .enter B :: v)).turned i) := by
    rw [List.foldlM_append, block_eq rfl hB]
    refine Except.bind_eq_ok_iff.mpr ⟨b', hb', ?_⟩
    rw [block_eq hnames' hA]
    exact hlast
  obtain ⟨hanswers, hafter⟩ := foldlM_perform_eq_ok_iff.mp hother
  refine ⟨hanswers, fun name w => ⟨?_, ?_⟩⟩
  · rw [hafter, answers, answers, act_enter_turned]
  · rw [after_append a (.enter A :: u ++ _), after_append a (.enter B :: v ++ _), hafter, after,
      after, act_enter_turned]

/-- Code that uses a table. -/
def tableCode : List Operation :=
  [.label "f", .makeGlobal "table",
    .inst ⟨.addi, [.reg (.ofBits 1), .reg (.ofBits 1), .expr (.marked .lo (.sym "table"))]⟩]

/-- The table, with the address of the code in it. -/
def codeTable : List Operation := [.makeGlobal "f", .label "table", .value (.sym "f") 4]

/-- A unit with both sections open, one of them with bytes in it. -/
def openUnit : Assembly := (start true).after [.enter ".data", .bytes [1, 2, 3]]

theorem interleaving_irrelevant_tableCode :
    (∀ x ∈ openUnit.answers (.enter ".text" :: tableCode ++ .enter ".data" :: codeTable),
      x.error = none) ∧
    ∃ o, (openUnit.after (.enter ".text" :: tableCode ++ .enter ".data" :: codeTable ++
        [.enter ".text"])).finish = .ok o ∧
      o.sections.map (fun s => (s.data.length, s.relocs.length)) = [(4, 1), (7, 1)] ∧
      (openUnit.after (.enter ".data" :: codeTable ++ .enter ".text" :: tableCode ++
        [.enter ".text"])).finish = .ok o := by
  have hanswers : ∀ x ∈ openUnit.answers (.enter ".text" :: tableCode ++
      .enter ".data" :: codeTable), x.error = none := by decide
  have hbuilt : ∃ o, (openUnit.after (.enter ".text" :: tableCode ++ .enter ".data" :: codeTable ++
        [.enter ".text"])).finish = .ok o ∧
      o.sections.map (fun s => (s.data.length, s.relocs.length)) = [(4, 1), (7, 1)] :=
    ⟨_, rfl, rfl⟩
  obtain ⟨o, hfinish, hsections⟩ := hbuilt
  have hsame := (interleaving_irrelevant openUnit (by decide) (by decide) (by decide) (by decide)
    (by decide) hanswers).2 ".text" []
  exact ⟨hanswers, o, hfinish, hsections, hsame.2.symm.trans hfinish⟩

end Dlx.Assembly
