import Mathlib.Logic.Equiv.Basic
import Dlx.Proofs.Link.Moving

/-!
# What a link does not depend on

Distances between two places of an image stay when the image is loaded elsewhere, so code that uses
only distances is the same at every base. And what an object calls its own local symbols is of no
concern to the other objects, nor to the image.

Results:
* `steady_of_unwrapped`: distances stay, as long as no address wraps at either base.
* `link_position_independent`: at another base, code that uses only distances links to the same
  bytes, with every address moved.
* `link_renamed_local`: a local symbol may have any other name that its object does not use.
-/
namespace Dlx

/-- An image and one with the same bytes whose addresses are greater by `c`. -/
structure Image.Shifted (c : Int) (image image' : Image) : Prop where
  bytes : image'.bytes = image.bytes
  textSize : image'.textSize = image.textSize
  entry : (image'.entry.toNat : Int) = image.entry.toNat + c
  /-- Both tables have the same names. -/
  symbols : ∀ name, (image'.symbols.find? name).map (fun a => (a.toNat : Int)) =
    (image.symbols.find? name).map fun a => (a.toNat : Int) + c

/-- An address that does not wrap when the base `b` becomes `b'`. -/
def MovesBy (b b' a : UInt32) : Prop :=
  ((a + (b' - b)).toNat : Int) = a.toNat + ((b'.toNat : Int) - b.toNat)

theorem movesBy_base (b b' : UInt32) : MovesBy b b' b := by
  have hmoved : b + (b' - b) = b' := by grind
  rw [MovesBy, hmoved]
  omega

theorem movesBy_of_lt {b b' v : UInt32} {n : Nat} (h : b.toNat + n + v.toNat < 0x100000000)
    (h' : b'.toNat + n + v.toNat < 0x100000000) : MovesBy b b' (b + UInt32.ofNat n + v) := by
  have hsum : ∀ b : UInt32, b.toNat + n + v.toNat < 0x100000000 →
      (b + UInt32.ofNat n + v).toNat = b.toNat + n + v.toNat := by
    intro b hb
    rw [UInt32.toNat_add, UInt32.toNat_add, UInt32.toNat_ofNat']
    omega
  have hmoved : b + UInt32.ofNat n + v + (b' - b) = b' + UInt32.ofNat n + v := by grind
  rw [MovesBy, hmoved, hsum b h, hsum b' h']
  omega

/-- Moving an address moves it as a number. -/
theorem MovesBy.addressInt {b b' a : UInt32} (h : MovesBy b b' a) :
    addressInt (a + (b' - b)) = addressInt a + Int64.ofInt ((b'.toNat : Int) - b.toNat) := by
  unfold Dlx.addressInt
  rw [← Int64.ofInt_eq_ofNat, ← Int64.ofInt_eq_ofNat, ← Int64.ofInt_add]
  exact congrArg Int64.ofInt h

/-- The distance of two addresses stays when both are moved. -/
theorem relocValue_of_movesBy {ty : RelocType} (hty : ty.rule.pcRelative = true)
    {b b' symbol place : UInt32} (hs : MovesBy b b' symbol) (hp : MovesBy b b' place)
    (addend : Int64) :
    relocValue ty (symbol + (b' - b)) (place + (b' - b)) addend =
      relocValue ty symbol place addend := by
  unfold relocValue
  dsimp only
  rw [if_pos ((RelocType.formula_eq_relative_iff ty).mpr hty), hs.addressInt, hp.addressInt,
    if_pos ((RelocType.formula_eq_relative_iff ty).mpr hty)]
  congr 1
  grind

namespace Linker

/-! ## Another base -/

/-- Only the base changes. -/
theorem link_rebased {objects : List (Object UInt32)} {base d : UInt32}
    (hsteady : (Linker.mk objects .empty).Steady base d) (entry : Option String) :
    Paired (· = ·) (Image.Moved d) ((Linker.mk objects .empty).link ⟨base, entry⟩)
      ((Linker.mk objects .empty).link ⟨base + d, entry⟩) := by
  have hpaired : Paired (· = ·) (Image.Moved d) ((Linker.mk objects .empty).link ⟨base, entry⟩)
      ((Linker.mk (renamedFrom (fun _ => id) 0 objects) .empty).link ⟨base + d, entry⟩) :=
    link_moved (fun _ => Function.injective_id) (fun _ => rfl)
      (fun _ _ _ s _ i => by rw [s.renamed_id]) (fun _ _ _ _ _ _ _ _ => rfl) hsteady
      (NameMap.follows_empty id d)
  rwa [renamedFrom_id] at hpaired

/-- In a link at `base` no address of a section or a symbol wraps. The addresses of a section are
those of all its bytes: in one that reaches past the end of the address space a place could wrap
while the symbol it refers to does not. -/
structure Unwrapped (objects : List (Object UInt32)) (base : UInt32) : Prop where
  sections : ∀ p ∈ (layout objects).all,
    base.toNat + p.offset + p.sect.body.data.length ≤ 0x100000000
  symbols : ∀ p ∈ (layout objects).all, ∀ o ∈ objects[p.sect.object]?, ∀ s ∈ o.symbols,
    s.home = some p.sect.index → base.toNat + p.offset + s.value.toNat < 0x100000000

section

variable {objects : List (Object UInt32)} {b b' : UInt32} (h : Unwrapped objects b)
  (h' : Unwrapped objects b')
include h h'

theorem movesBy_of_symbolAddress? {k : Nat} {o : Object UInt32} (ho : objects[k]? = some o)
    {s : Symbol} (hs : s ∈ o.symbols) {a : UInt32}
    (ha : symbolAddress? ((Linker.mk objects .empty).place b k) s = some a) : MovesBy b b' a := by
  obtain ⟨i, hi, p, hp, hkey, rfl⟩ := symbolAddress?_place.mp ha
  obtain ⟨rfl, rfl⟩ := Prod.mk.inj hkey
  exact movesBy_of_lt (h.symbols p hp o ho s hs hi) (h'.symbols p hp o ho s hs hi)

theorem movesBy_of_globalAddress? {name : String} {a : UInt32}
    (ha : (Linker.mk objects .empty).globalAddress? b name = some a) : MovesBy b b' a := by
  have hnone : (NameMap.empty : NameMap UInt32).find? name = none := rfl
  rw [globalAddress?, hnone, Option.or_none] at ha
  obtain ⟨k, o, ho, s, hs, -, -, haddress⟩ :=
    mem_globalDefinitions.mp (mem_of_lookup_reverse ha)
  exact movesBy_of_symbolAddress? h h' ho hs haddress

theorem movesBy_of_address? {k : Nat} {name : String} {a : UInt32}
    (ha : (Linker.mk objects .empty).address? b k name = some a) : MovesBy b b' a := by
  rcases Option.or_eq_some_iff.mp ha with hlocal | ⟨-, hglobal⟩
  · obtain ⟨o, ho, hlocal⟩ := Option.bind_eq_some_iff.mp hlocal
    obtain ⟨s, hs, -, -, haddress⟩ :=
      mem_definitions.mp (mem_of_lookup_reverse hlocal)
    exact movesBy_of_symbolAddress? h h' ho hs haddress
  · exact movesBy_of_globalAddress? h h' hglobal

theorem steady_of_unwrapped
    (hcodes : ∀ o ∈ objects, ∀ s ∈ o.sections, ∀ r ∈ s.relocs,
      r.type = 0 ∨ r.type = 5 ∨ r.type = 6) :
    (Linker.mk objects .empty).Steady b (b' - b) := by
  intro s hs p hp r hr ty symbol hty hne hin hsymbol
  obtain ⟨o, ho, hos⟩ := mem_allSections.mp hs
  have hrelative : ty.rule.pcRelative = true ∧ ty.rule.size = 4 := by
    have hcode := hcodes o (List.mem_of_getElem? ho) _ (List.mem_of_getElem? hos) r hr
    rcases hcode with hcode | hcode | hcode <;> rw [hcode] at hty <;> cases hty
    · exact absurd rfl hne
    · exact ⟨rfl, rfl⟩
    · exact ⟨rfl, rfl⟩
  obtain ⟨q, hq, -, rfl⟩ := placement?_eq_some_iff.mp hp
  have hplace : MovesBy b b' (b + UInt32.ofNat q.offset + r.offset) := by
    have hend := h.sections q hq
    have hend' := h'.sections q hq
    rw [hrelative.2] at hin
    simp only [Placed.placement] at hin
    exact movesBy_of_lt (by omega) (by omega)
  have hmoved : (q.placement b).address + (b' - b) + r.offset =
      b + UInt32.ofNat q.offset + r.offset + (b' - b) := by
    simp only [Placed.placement]
    grind
  rw [hmoved]
  exact relocValue_of_movesBy hrelative.1 (movesBy_of_address? h h' hsymbol) hplace r.addend

/-- Without fixed addresses every address that an image gives can be moved. -/
theorem shifted_of_moved {entry : Option String} {image image' : Image}
    (hlink : (Linker.mk objects .empty).link ⟨b, entry⟩ = .ok image)
    (hmoved : image.Moved (b' - b) image') :
    image.Shifted ((b'.toNat : Int) - b.toNat) image' := by
  have hentry : MovesBy b b' image.entry := by
    obtain ⟨-, -, address, haddress, himage⟩ :=
      (link_eq_ok_iff (homesExist_of_link hlink)).mp hlink
    rw [himage]
    cases entry with
    | some name => exact movesBy_of_globalAddress? h h' haddress
    | none =>
      cases hmain : (Linker.mk objects .empty).globalAddress? b "main" with
      | some main =>
        simp only [entryPoint?, hmain, Option.getD_some, Option.some.injEq] at haddress
        exact haddress ▸ movesBy_of_globalAddress? h h' hmain
      | none =>
        simp only [entryPoint?, hmain, Option.getD_none, Option.some.injEq] at haddress
        exact haddress ▸ movesBy_base b b'
  constructor
  case bytes => exact hmoved.bytes
  case textSize => exact hmoved.textSize
  case entry =>
    rw [hmoved.entry]
    exact hentry
  case symbols =>
    intro name
    have hfind : image'.symbols.find? name = (image.symbols.find? name).map (· + (b' - b)) :=
      hmoved.symbols name
    rw [hfind, Option.map_map]
    refine Option.map_congr fun address haddress => ?_
    rcases (find?_symbols_iff hlink name address).mp haddress with hfixed | hmem
    · cases hfixed
    · obtain ⟨k, o, ho, s, hs, -, -, hs'⟩ := mem_globalDefinitions.mp hmem
      exact movesBy_of_symbolAddress? h h' ho hs hs'

end

/-- Code that uses only distances is position independent. Two links of the same objects at bases
where no address wraps both succeed or fail alike. If they succeed, the bytes are the same, and the
entry and every symbol differ by the distance of the bases. -/
theorem link_position_independent (objects : List (Object UInt32))
    (hcodes : ∀ o ∈ objects, ∀ s ∈ o.sections, ∀ r ∈ s.relocs,
      r.type = 0 ∨ r.type = 5 ∨ r.type = 6)
    (b b' : UInt32) (h : Unwrapped objects b) (h' : Unwrapped objects b')
    (entry : Option String) :
    match (Linker.mk objects .empty).link ⟨b, entry⟩,
      (Linker.mk objects .empty).link ⟨b', entry⟩ with
    | .ok image, .ok image' => image.Shifted ((b'.toNat : Int) - b.toNat) image'
    | .error e, .error e' => e = e'
    | _, _ => False := by
  have hpaired := link_rebased (steady_of_unwrapped h h' hcodes) entry
  have hb : b + (b' - b) = b' := by grind
  rw [hb] at hpaired
  generalize hx : (Linker.mk objects .empty).link ⟨b, entry⟩ = x at hpaired ⊢
  generalize (Linker.mk objects .empty).link ⟨b', entry⟩ = y at hpaired ⊢
  cases hpaired with
  | ok hmoved => exact shifted_of_moved h h' hx hmoved
  | error he => exact he

/-- A branch to a local label, a call of another object and a relocation of no effect. -/
def relativeOnly : List (Object UInt32) :=
  [⟨[⟨".text", .text, [0, 0, 0, 20, 0, 0, 0, 12],
      [⟨0, "loop", 5, 0⟩, ⟨4, "f", 6, 0⟩, ⟨0, "", 0, 0⟩]⟩], [⟨"loop", some 0, 0, false⟩]⟩,
    ⟨[⟨".data", .data, [7], []⟩, ⟨".text", .text, [0, 0, 0, 0], []⟩], [⟨"f", some 1, 0, true⟩]⟩]

/-- The last byte at the second base is the last one of the address space. -/
theorem link_position_independent_relativeOnly :
    ∃ image image', (Linker.mk relativeOnly .empty).link ⟨0x1000, some "f"⟩ = .ok image ∧
      (Linker.mk relativeOnly .empty).link ⟨0xfffffff0, some "f"⟩ = .ok image' ∧
      image.entry = 0x1008 ∧ image'.entry = 0xfffffff8 ∧ image.Shifted 0xffffeff0 image' := by
  have hlinked : ∃ image image',
      (Linker.mk relativeOnly .empty).link ⟨0x1000, some "f"⟩ = .ok image ∧
      (Linker.mk relativeOnly .empty).link ⟨0xfffffff0, some "f"⟩ = .ok image' ∧
      image.entry = 0x1008 ∧ image'.entry = 0xfffffff8 :=
    ⟨_, _, rfl, rfl, rfl, rfl⟩
  obtain ⟨image, image', hlink, hlink', hentry, hentry'⟩ := hlinked
  have hsame := link_position_independent relativeOnly (by decide) 0x1000 0xfffffff0
    ⟨by decide, by decide⟩ ⟨by decide, by decide⟩ (some "f")
  rw [hlink, hlink'] at hsame
  exact ⟨image, image', hlink, hlink', hentry, hentry', hsame⟩

/-! ## Other names for local symbols -/

/-- Only the names change. -/
theorem link_renamed {l : Linker} {ρ : Nat → String → String} {E : LinkError → LinkError → Prop}
    (hρ : ∀ k, Function.Injective (ρ k)) (hE : ∀ e, E e e)
    (hs : ∀ (k : Nat) (o : Object UInt32), l.objects[k]? = some o → ∀ s ∈ o.symbols, ∀ i,
      E (.noSuchSection s.name i) (.noSuchSection (s.renamed (ρ k)).name i))
    (hnames : ∀ (k : Nat) (o : Object UInt32), l.objects[k]? = some o → ∀ s ∈ o.sections,
      ∀ r ∈ s.relocs, localSymbol? o.symbols r.symbol = none → ρ k r.symbol = r.symbol)
    (options : LinkSettings) :
    Paired E (fun image image' => image' = image) (l.link options)
      ((Linker.mk (renamedFrom ρ 0 l.objects) l.absolutes).link options) := by
  have hsteady : l.Steady options.base 0 := by
    intro s _ p _ r _ ty symbol _ _ _ _
    simp only [UInt32.add_zero]
  have hpaired := link_moved hρ hE hs hnames hsteady (NameMap.follows_zero_iff.mpr rfl)
  rw [UInt32.add_zero] at hpaired
  exact hpaired.mono fun _ _ hmoved => hmoved.eq

/-- A renaming in the object with index `k` only. -/
def onlyIn (k : Nat) (ρ : String → String) (j : Nat) : String → String := if j = k then ρ else id

theorem onlyIn_self (k : Nat) (ρ : String → String) : onlyIn k ρ k = ρ := if_pos rfl

theorem onlyIn_of_ne {k j : Nat} (h : j ≠ k) (ρ : String → String) : onlyIn k ρ j = id := if_neg h

theorem injective_onlyIn (k : Nat) {ρ : String → String} (hρ : Function.Injective ρ) (j : Nat) :
    Function.Injective (onlyIn k ρ j) := by
  unfold onlyIn
  split
  · exact hρ
  · exact Function.injective_id

theorem renamedFrom_onlyIn {objects : List (Object UInt32)} {k : Nat} {o : Object UInt32}
    (ho : objects[k]? = some o) (ρ : String → String) :
    renamedFrom (onlyIn k ρ) 0 objects = objects.set k (o.renamed ρ) := by
  refine List.ext_getElem? fun j => ?_
  rw [renamedFrom, List.getElem?_map, List.getElem?_zipIdx, List.getElem?_set, Nat.zero_add]
  by_cases hj : k = j
  · subst hj
    have hlt : k < objects.length := (List.getElem?_eq_some_iff.mp ho).1
    simp only [ho, Option.map_some, if_true, hlt, onlyIn_self]
  · cases hget : objects[j]? with
    | none => simp only [Option.map_none, if_neg hj]
    | some o' =>
      simp only [Option.map_some, if_neg hj, onlyIn_of_ne (Ne.symm hj), Object.renamed_id]

/-- Only the names in one object change. -/
theorem link_renamed_single {l : Linker} {k : Nat} {o : Object UInt32} (ho : l.objects[k]? = some o)
    {ρ : String → String} {E : LinkError → LinkError → Prop} (hρ : Function.Injective ρ)
    (hE : ∀ e, E e e)
    (hs : ∀ s ∈ o.symbols, ∀ i,
      E (.noSuchSection s.name i) (.noSuchSection (s.renamed ρ).name i))
    (hnames : ∀ s ∈ o.sections, ∀ r ∈ s.relocs,
      localSymbol? o.symbols r.symbol = none → ρ r.symbol = r.symbol) (options : LinkSettings) :
    Paired E (fun image image' => image' = image) (l.link options)
      ((Linker.mk (l.objects.set k (o.renamed ρ)) l.absolutes).link options) := by
  rw [← renamedFrom_onlyIn ho]
  refine link_renamed (injective_onlyIn k hρ) hE ?_ ?_ options
  · intro j o' ho' s hs' i
    by_cases hj : j = k
    · subst hj
      cases ho.symm.trans ho'
      rw [onlyIn_self]
      exact hs s hs' i
    · rw [onlyIn_of_ne hj, Symbol.renamed_id]
      exact hE _
  · intro j o' ho' s hs' r hr hnone
    by_cases hj : j = k
    · subst hj
      cases ho.symm.trans ho'
      rw [onlyIn_self]
      exact hnames s hs' r hr hnone
    · rw [onlyIn_of_ne hj, id]

/-- The same error, up to the name of a symbol that is in no section of its object. -/
def SameError (x y : String) (e e' : LinkError) : Prop :=
  e' = e ∨ ∃ i, e = .noSuchSection x i ∧ e' = .noSuchSection y i

section

variable {o : Object UInt32} {x y : String} (hsymbols : ∀ s ∈ o.symbols, s.name ≠ y)
include hsymbols

/-- In an object that does not use the new name, renaming exchanges the two names. -/
theorem renamed_eq_swap (hrelocs : ∀ s ∈ o.sections, ∀ r ∈ s.relocs, r.symbol ≠ y) :
    (o.renamed fun name => if name = x then y else name) = o.renamed (Equiv.swap x y) := by
  have hswap : ∀ name, name ≠ y → (if name = x then y else name) = Equiv.swap x y name := by
    intro name hname
    rw [Equiv.swap_apply_def]
    simp only [hname, if_false]
  exact Object.renamed_congr (fun s hs => hswap s.name (hsymbols s hs))
    fun s hs r hr => hswap r.symbol (hrelocs s hs r hr)

theorem sameError_swap {s : Symbol} (hs : s ∈ o.symbols) (i : Nat) :
    SameError x y (.noSuchSection s.name i)
      (.noSuchSection (s.renamed (Equiv.swap x y)).name i) := by
  cases hg : s.isGlobal with
  | true => exact .inl (by rw [Symbol.renamed_of_isGlobal hg])
  | false =>
    rw [Symbol.renamed_of_local hg]
    by_cases hx : s.name = x
    · refine .inr ⟨i, by rw [hx], ?_⟩
      simp only [hx, Equiv.swap_apply_left]
    · refine .inl ?_
      simp only [Equiv.swap_apply_of_ne_of_ne hx (hsymbols s hs)]

end

theorem localSymbol?_ne_none {symbols : List Symbol} {s : Symbol} (hs : s ∈ symbols)
    (hlocal : s.isGlobal = false) (hhome : s.home.isSome) : localSymbol? symbols s.name ≠ none := by
  intro hnone
  have := List.find?_eq_none.mp hnone s (List.mem_reverse.mpr hs)
  simp [hlocal, hhome] at this

/-- A local symbol is private to its object: it may have any other name that no symbol and no
relocation of the object has. The name shows only in the error for a symbol whose section does not
exist. -/
theorem link_renamed_local (l : Linker) (options : LinkSettings) {k : Nat} {o : Object UInt32}
    (ho : l.objects[k]? = some o) {x y : String}
    (hx : ∃ s ∈ o.symbols, s.isGlobal = false ∧ s.home.isSome ∧ s.name = x)
    (hsymbols : ∀ s ∈ o.symbols, s.name ≠ y)
    (hrelocs : ∀ s ∈ o.sections, ∀ r ∈ s.relocs, r.symbol ≠ y) :
    let o' := o.renamed fun name => if name = x then y else name
    let l' : Linker := { l with objects := l.objects.set k o' }
    l'.link options = l.link options ∨
      ∃ i, l.link options = .error (.noSuchSection x i) ∧
        l'.link options = .error (.noSuchSection y i) := by
  intro o' l'
  have hnames : ∀ s ∈ o.sections, ∀ r ∈ s.relocs,
      localSymbol? o.symbols r.symbol = none → Equiv.swap x y r.symbol = r.symbol := by
    intro s hs r hr hnone
    have hne : r.symbol ≠ x := by
      intro hsame
      obtain ⟨t, ht, hlocal, hhome, hname⟩ := hx
      rw [hsame, ← hname] at hnone
      exact localSymbol?_ne_none ht hlocal hhome hnone
    exact Equiv.swap_apply_of_ne_of_ne hne (hrelocs s hs r hr)
  have hpaired : Paired (SameError x y) (fun image image' => image' = image) (l.link options)
      (l'.link options) := by
    have hswap := link_renamed_single ho (Equiv.swap x y).injective (fun e => .inl rfl)
      (fun s hs i => sameError_swap hsymbols hs i) hnames options
    rwa [← renamed_eq_swap hsymbols hrelocs] at hswap
  generalize l.link options = result at hpaired ⊢
  generalize l'.link options = result' at hpaired ⊢
  cases hpaired with
  | ok hsame => exact .inl (congrArg Except.ok hsame)
  | error he =>
    rcases he with rfl | ⟨i, rfl, rfl⟩
    · exact .inl rfl
    · exact .inr ⟨i, rfl, rfl⟩

/-- Two objects, each with a `loop` of its own. The second one also has a global `done`. -/
def sharedNames : Linker :=
  ⟨[⟨[⟨".text", .text, [0, 0, 0, 0, 0, 0, 0, 12], [⟨4, "loop", 6, 0⟩]⟩],
      [⟨"loop", some 0, 0, false⟩]⟩,
    ⟨[⟨".text", .text, [0, 0, 0, 0, 0, 0, 0, 12], [⟨4, "loop", 6, 0⟩]⟩],
      [⟨"loop", some 0, 4, false⟩, ⟨"done", some 0, 0, true⟩]⟩], .empty⟩

/-- The first `loop` may be called `done`, and its jump still reaches it. -/
theorem link_renamed_local_sharedNames :
    ∃ image, sharedNames.link ⟨0x1000, some "done"⟩ = .ok image ∧
      image.bytes = [0, 0, 0, 0, 0xff, 0xff, 0xff, 15, 0, 0, 0, 0, 0, 0, 0, 12] ∧
      (Linker.mk (sharedNames.objects.set 0
        ⟨[⟨".text", .text, [0, 0, 0, 0, 0, 0, 0, 12], [⟨4, "done", 6, 0⟩]⟩],
          [⟨"done", some 0, 0, false⟩]⟩) .empty).link ⟨0x1000, some "done"⟩ = .ok image := by
  have hlinked : ∃ image, sharedNames.link ⟨0x1000, some "done"⟩ = .ok image ∧
      image.bytes = [0, 0, 0, 0, 0xff, 0xff, 0xff, 15, 0, 0, 0, 0, 0, 0, 0, 12] :=
    ⟨_, rfl, rfl⟩
  obtain ⟨image, hlink, hbytes⟩ := hlinked
  have hsame := link_renamed_local sharedNames ⟨0x1000, some "done"⟩ (k := 0) rfl (x := "loop")
    (y := "done") (by decide) (by decide) (by decide)
  rw [hlink] at hsame
  refine ⟨image, hlink, hbytes, ?_⟩
  rcases hsame with hsame | ⟨i, habsurd, -⟩
  · exact hsame
  · cases habsurd

end Linker

end Dlx
