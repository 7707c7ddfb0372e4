import Dlx.Proofs.Link.Success

/-!
# Operations that fail

A linker is filled by a session of operations: fixed addresses, object files and objects. A file
that cannot be read is not added. A name that is given an address again is reported, but its address
has changed by then, so what a session leaves behind is told by its successful operations only when
these are corrected to the last address of each name.

Results:
* `find?_after`: after a session a name has the last address it was given.
* `find?_after_succeeded`: after the successful operations of a session it has the first one.
* `link_after_session`: what the failed operations of a session change in a link, and when they
  change nothing.
-/
namespace Dlx.Linker

/-- An operation on a linker. -/
inductive Operation where
  | define (name : String) (address : UInt32)
  | addFile (bs : Bytes)
  | addObject (o : Object UInt32)

/-- Performs an operation; the error is the one it reports. -/
def perform (l : Linker) : Operation → Linker × Option LinkError
  | .define name address => l.define name address
  | .addFile bs =>
    match l.addFile bs with
    | .ok l' => (l', none)
    | .error e => (l, some e)
  | .addObject o => (l.addObject o, none)

/-- The linker after a session, whichever of its operations fail. -/
def after (l : Linker) : List Operation → Linker
  | [] => l
  | op :: rest => (l.perform op).1.after rest

/-- The operations of a session that report no error. -/
def succeeded (l : Linker) : List Operation → List Operation
  | [] => []
  | op :: rest =>
    if (l.perform op).2.isNone then op :: (l.perform op).1.succeeded rest
    else (l.perform op).1.succeeded rest

/-- The address that an operation gives to a name, if it gives one. -/
def Operation.addressFor? (name : String) : Operation → Option UInt32
  | .define n address => if n = name then some address else none
  | _ => none

/-- The addresses that a session gives to a name, in order. -/
def addressesOf (name : String) (ops : List Operation) : List UInt32 :=
  ops.filterMap (Operation.addressFor? name)

/-- A session in which no name ends up with another address than it got first. -/
def KeepsAddresses (ops : List Operation) : Prop :=
  ∀ name, (addressesOf name ops).head? = (addressesOf name ops).getLast?

/-- The operation with another address in place of a fixed one. -/
def Operation.readdress (f : String → UInt32 → UInt32) : Operation → Operation
  | .define name address => .define name (f name address)
  | op => op

/-- The operation as it would be with the last address that a session gives to its name. -/
def Operation.withLastAddress (ops : List Operation) : Operation → Operation :=
  readdress fun name address => (addressesOf name ops).getLast?.getD address

/-! ## The objects of a session -/

/-- The object that an operation adds, if it adds one. -/
def Operation.object? : Operation → Option (Object UInt32)
  | .define _ _ => none
  | .addFile bs => (Elf.readObject bs).toOption
  | .addObject o => some o

theorem objects_perform (l : Linker) (op : Operation) :
    (l.perform op).1.objects = l.objects ++ op.object?.toList := by
  cases op with
  | define name address => simp [perform, define, Operation.object?]
  | addFile bs =>
    cases h : Elf.readObject bs <;>
      simp [perform, addFile, addObject, Operation.object?, h, Except.toOption]
  | addObject o => rfl

/-- An operation that fails adds no object. -/
theorem object?_of_failed {l : Linker} {op : Operation} (h : (l.perform op).2.isNone = false) :
    op.object? = none := by
  cases op with
  | define name address => rfl
  | addFile bs => cases hr : Elf.readObject bs <;> simp_all [perform, addFile, Operation.object?,
      Except.toOption]
  | addObject o => simp [perform] at h

theorem objects_after (l : Linker) (ops : List Operation) :
    (l.after ops).objects = l.objects ++ ops.filterMap Operation.object? := by
  induction ops generalizing l with
  | nil => simp [after]
  | cons op rest ih =>
    rw [after, ih, objects_perform, List.append_assoc, List.filterMap_cons]
    cases op.object? <;> rfl

theorem objects_succeeded (l : Linker) (ops : List Operation) (f : String → UInt32 → UInt32) :
    ((l.succeeded ops).map (Operation.readdress f)).filterMap Operation.object? =
      ops.filterMap Operation.object? := by
  induction ops generalizing l with
  | nil => rfl
  | cons op rest ih =>
    have hobject : (op.readdress f).object? = op.object? := by cases op <;> rfl
    rw [succeeded, List.filterMap_cons]
    cases hop : (l.perform op).2.isNone with
    | true =>
      rw [if_pos rfl, List.map_cons, List.filterMap_cons, hobject, ih]
    | false =>
      rw [if_neg (by simp), object?_of_failed hop, ih]

/-! ## The addresses of a session -/

theorem find?_perform (l : Linker) (op : Operation) (name : String) :
    (l.perform op).1.absolutes.find? name =
      (op.addressFor? name).or (l.absolutes.find? name) := by
  cases op with
  | define n address =>
    by_cases h : n = name
    · subst h
      simp [perform, define, Operation.addressFor?]
    · simp [perform, define, Operation.addressFor?, h, NameMap.find?_insert_of_ne _ _ (Ne.symm h)]
  | addFile bs =>
    cases h : Elf.readObject bs <;>
      simp [perform, addFile, addObject, Operation.addressFor?, h]
  | addObject o => rfl

/-- A definition succeeds exactly if its name has no address yet. -/
theorem isNone_perform {op : Operation} {name : String} {address : UInt32}
    (h : op.addressFor? name = some address) (l : Linker) :
    (l.perform op).2.isNone = (l.absolutes.find? name).isNone := by
  cases op with
  | define n a =>
    obtain ⟨rfl, -⟩ : n = name ∧ a = address := by simpa [Operation.addressFor?] using h
    cases hn : l.absolutes.find? n <;> simp [perform, define, NameMap.contains, hn]
  | addFile bs => cases h
  | addObject o => cases h

theorem find?_after (l : Linker) (ops : List Operation) (name : String) :
    (l.after ops).absolutes.find? name =
      (addressesOf name ops).getLast?.or (l.absolutes.find? name) := by
  induction ops generalizing l with
  | nil => rfl
  | cons op rest ih =>
    rw [after, ih, find?_perform, addressesOf, addressesOf, List.filterMap_cons, ← Option.or_assoc]
    cases op.addressFor? name with
    | none => rw [Option.or_none]
    | some a => rw [List.getLast?_cons]; cases (rest.filterMap _).getLast? <;> rfl

theorem addressFor?_readdress (f : String → UInt32 → UInt32) (op : Operation) (n : String) :
    (op.readdress f).addressFor? n = (op.addressFor? n).map (f n) := by
  cases op with
  | define k a => by_cases hk : k = n <;> simp [Operation.readdress, Operation.addressFor?, hk]
  | addFile bs => rfl
  | addObject o => rfl

theorem head?_addressesOf_cons (name : String) (op : Operation) (rest : List Operation) :
    (addressesOf name (op :: rest)).head? =
      (op.addressFor? name).or (addressesOf name rest).head? := by
  rw [addressesOf, List.filterMap_cons]
  cases op.addressFor? name <;> rfl

/-- The successful operations of a session are performed on a linker `l` that has addresses for the
same names as the linker `m` of the session. The addresses themselves may differ: a definition that
fails has changed the one of `m`. -/
theorem find?_after_succeeded {l m : Linker}
    (h : ∀ n, (l.absolutes.find? n).isNone = (m.absolutes.find? n).isNone)
    (f : String → UInt32 → UInt32) (ops : List Operation) (name : String) :
    (l.after ((m.succeeded ops).map (Operation.readdress f))).absolutes.find? name =
      (l.absolutes.find? name).or ((addressesOf name ops).head?.map (f name)) := by
  induction ops generalizing l m with
  | nil => simp [succeeded, after, addressesOf]
  | cons op rest ih =>
    have haddress := addressFor?_readdress f op
    rw [succeeded, head?_addressesOf_cons]
    cases hop : (m.perform op).2.isNone with
    | true =>
      have hnames : ∀ n, ((l.perform (op.readdress f)).1.absolutes.find? n).isNone =
          ((m.perform op).1.absolutes.find? n).isNone := by
        intro n
        rw [find?_perform, find?_perform, haddress]
        cases op.addressFor? n with
        | none => exact h n
        | some a => rfl
      rw [if_pos rfl, List.map_cons, after, ih hnames, find?_perform, haddress]
      cases hname : op.addressFor? name with
      | none => rfl
      | some a =>
        have hnone : l.absolutes.find? name = none := by
          rw [isNone_perform hname, ← h name, Option.isNone_iff_eq_none] at hop
          exact hop
        rw [hnone]
        rfl
    | false =>
      have hnames : ∀ n, (l.absolutes.find? n).isNone =
          ((m.perform op).1.absolutes.find? n).isNone := by
        intro n
        rw [find?_perform, h n]
        cases hn : op.addressFor? n with
        | none => rfl
        | some a => rw [← isNone_perform hn, hop]; rfl
      rw [if_neg (by simp), ih hnames]
      cases hname : op.addressFor? name with
      | none => rfl
      | some a =>
        rw [isNone_perform hname, ← h name] at hop
        cases hl : l.absolutes.find? name with
        | none => simp [hl] at hop
        | some b => rfl

/-! ## Linking after a session -/

theorem find?_empty (name : String) : empty.absolutes.find? name = none := rfl

theorem after_withLastAddress (ops : List Operation) :
    empty.after ((empty.succeeded ops).map (Operation.withLastAddress ops)) = empty.after ops := by
  have hobjects : (empty.after ((empty.succeeded ops).map (Operation.withLastAddress ops))).objects =
      (empty.after ops).objects := by
    rw [objects_after, objects_after, Operation.withLastAddress, objects_succeeded]
  have haddresses : (empty.after ((empty.succeeded ops).map
      (Operation.withLastAddress ops))).absolutes = (empty.after ops).absolutes := by
    refine NameMap.eq_of_find? fun name => ?_
    rw [Operation.withLastAddress, find?_after_succeeded (fun _ => rfl), find?_after, find?_empty]
    cases addressesOf name ops with
    | nil => rfl
    | cons a as => simp [List.getLast?_cons]
  exact congrArg₂ Linker.mk hobjects haddresses

theorem map_readdress_self (ops : List Operation) :
    ops.map (Operation.readdress fun _ address => address) = ops := by
  have hid : (Operation.readdress fun _ address => address) = id := by
    funext op
    cases op <;> rfl
  rw [hid, List.map_id]

theorem find?_after_kept (ops : List Operation) (name : String) :
    (empty.after (empty.succeeded ops)).absolutes.find? name = (addressesOf name ops).head? := by
  have h := find?_after_succeeded (l := empty) (fun _ => rfl) (fun _ address => address) ops name
  rw [map_readdress_self, find?_empty, Option.none_or] at h
  exact h.trans Option.map_id'

theorem after_kept {ops : List Operation} (h : KeepsAddresses ops) :
    empty.after (empty.succeeded ops) = empty.after ops := by
  have hobjects := objects_succeeded empty ops fun _ address => address
  rw [map_readdress_self] at hobjects
  refine congrArg₂ Linker.mk ?_ ?_
  · rw [objects_after, objects_after, hobjects]
  · refine NameMap.eq_of_find? fun name => ?_
    rw [find?_after_kept, find?_after, h name, find?_empty, Option.or_none]

/-- A name with a fixed address has it in the image. -/
theorem find?_symbols_of_link {l : Linker} {options : LinkSettings} {image : Image}
    (h : l.link options = .ok image) {name : String} {address : UInt32}
    (hname : l.absolutes.find? name = some address) : image.symbols.find? name = some address := by
  have hh := homesExist_of_link h
  obtain ⟨hnodup, -, entry, -, rfl⟩ := (link_eq_ok_iff hh).mp h
  obtain ⟨a, ha⟩ := (collect_isOk_iff options.base hh).mpr hnodup
  -- the objects define no name that is fixed already
  have hfresh := ((collect_eq_ok_iff (homesPlaced_of_homesExist hh options.base)).mp ha).1.2
  have hnone : (globalDefinitions (l.place options.base) 0 l.objects).reverse.lookup name = none := by
    rw [List.lookup_eq_none_iff]
    intro d hd
    rw [bne_iff_ne]
    intro hd'
    have := hfresh d.1 (List.mem_map_of_mem (List.mem_reverse.mp hd))
    rw [← hd', hname] at this
    cases this
  rw [NameMap.find?_insertAll, hnone, Option.none_or, hname]

theorem keepsAddresses_of_link {ops : List Operation} {options : LinkSettings} {image : Image}
    (hwhole : (empty.after ops).link options = .ok image)
    (hkept : (empty.after (empty.succeeded ops)).link options = .ok image) :
    KeepsAddresses ops := by
  intro name
  cases haddr : addressesOf name ops with
  | nil => rfl
  | cons a as =>
    have hfirst : (empty.after (empty.succeeded ops)).absolutes.find? name = some a := by
      rw [find?_after_kept, haddr]
      rfl
    have hlast : (empty.after ops).absolutes.find? name = (a :: as).getLast? := by
      rw [find?_after, haddr, List.getLast?_cons]
      rfl
    have hsymbols := find?_symbols_of_link hkept hfirst
    rw [List.getLast?_cons] at hlast ⊢
    rw [find?_symbols_of_link hwhole hlast, Option.some.injEq] at hsymbols
    rw [List.head?_cons, hsymbols]

/-- A link after a session gives what it gives after the operations that succeeded, each name at the
last address it was given: a file that cannot be read leaves no trace, and a definition that fails
leaves its address. So the failed operations change nothing if every name keeps its first address,
and as long as the link succeeds they change nothing only then. -/
theorem link_after_session (ops : List Operation) (options : LinkSettings) :
    (empty.after ops).link options =
      (empty.after ((empty.succeeded ops).map (Operation.withLastAddress ops))).link options ∧
    (KeepsAddresses ops →
      (empty.after ops).link options = (empty.after (empty.succeeded ops)).link options) ∧
    ∀ image, (empty.after ops).link options = .ok image →
      (empty.after (empty.succeeded ops)).link options = .ok image → KeepsAddresses ops := by
  refine ⟨?_, ?_, ?_⟩
  · rw [after_withLastAddress]
  · intro h
    rw [after_kept h]
  · intro image hwhole hkept
    exact keepsAddresses_of_link hwhole hkept

/-- A session in which a file cannot be read and an address is given twice. -/
def repeatedAddress : List Operation :=
  [.define "x" 16, .addFile [1, 2, 3], .define "x" 16,
    .addObject ⟨[⟨".text", .text, [0, 0, 0, 0], [⟨0, "x", 1, 4⟩]⟩], []⟩]

theorem link_after_session_repeatedAddress :
    (empty.succeeded repeatedAddress).length = 2 ∧ KeepsAddresses repeatedAddress ∧
    (empty.after repeatedAddress).link ⟨0, none⟩ =
      (empty.after (empty.succeeded repeatedAddress)).link ⟨0, none⟩ ∧
    ((empty.after repeatedAddress).link ⟨0, none⟩).toOption.map (·.bytes) =
      some [20, 0, 0, 0] := by
  have hkeeps : KeepsAddresses repeatedAddress := by
    intro name
    have haddresses : addressesOf name repeatedAddress = if "x" = name then [16, 16] else [] := by
      by_cases h : "x" = name <;>
        simp [repeatedAddress, addressesOf, List.filterMap_cons, Operation.addressFor?, h]
    rw [haddresses]
    split <;> rfl
  exact ⟨by decide, hkeeps, (link_after_session repeatedAddress ⟨0, none⟩).2.1 hkeeps, by decide⟩

/-- A definition that is reported as a second one has moved the symbol. -/
theorem failed_definition_moves_symbol :
    let ops : List Operation := [.define "x" 1, .define "x" 2]
    empty.succeeded ops = [.define "x" 1] ∧
    ((empty.after ops).link ⟨0, none⟩).toOption.map (·.symbols.entries) = some [("x", 2)] ∧
    ((empty.after (empty.succeeded ops)).link ⟨0, none⟩).toOption.map (·.symbols.entries) =
      some [("x", 1)] ∧
    (empty.after ops).link ⟨0, none⟩ ≠ (empty.after (empty.succeeded ops)).link ⟨0, none⟩ := by
  refine ⟨rfl, by decide, by decide, ?_⟩
  intro h
  have hentries := congrArg (fun r => r.toOption.map (·.symbols.entries)) h
  exact absurd hentries (by decide)

end Dlx.Linker
