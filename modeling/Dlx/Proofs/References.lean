import Dlx.Expr
import Mathlib.Data.List.Basic

/-!
# What an expression refers to

A fixup carries a reference, `symbol - subtrahend + addend`, in place of an expression. The reader of
references knows five shapes of expressions and no others (`RefersUnder`), which may stand under one
marker. A reference has the value of the expression that it was read from, whatever the symbols
stand for, and the marker of that expression.

Constants are folded by another evaluator. Where there is no marker it gives the value of every
expression without symbols.

Results:
* `refersUnder?_eq_some_iff`, `refers?_eq_some_iff`: the expressions that are references.
* `constant?_of_markerFree`: the value of an expression without markers, if it is constant.
* `references_sound_complete`: references and constants have the right value, and are found in all
  expressions that have the shape of one.
-/
namespace Dlx

namespace Expr

/-! ## Values -/

/-- The symbols that occur in an expression. -/
def names : Expr → List String
  | .const _ => []
  | .sym n => [n]
  | .bin _ l r => l.names ++ r.names
  | .marked _ e => e.names

/-- The value of an expression whose symbols have the values `σ`, where markers mean `mark`. -/
def value (mark : Marker → Int64 → Int64) (σ : String → Int64) : Expr → Int64
  | .const c => c
  | .sym s => σ s
  | .bin .add l r => l.value mark σ + r.value mark σ
  | .bin .sub l r => l.value mark σ - r.value mark σ
  | .marked m e => mark m (e.value mark σ)

def MarkerFree : Expr → Prop
  | .const _ | .sym _ => True
  | .bin _ l r => l.MarkerFree ∧ r.MarkerFree
  | .marked _ _ => False

/-- The expression without its outermost marker. -/
def unmarked : Expr → Expr
  | .marked _ e => e
  | e => e

theorem names_unmarked (e : Expr) : e.unmarked.names = e.names := by
  cases e <;> rfl

/-- A constant, or a symbol at a constant distance. -/
inductive IsOffset : Expr → Prop where
  | const (c : Int64) : IsOffset (.const c)
  | sym (s : String) : IsOffset (.sym s)
  | symAdd (s : String) (c : Int64) : IsOffset (.bin .add (.sym s) (.const c))
  | symSub (s : String) (c : Int64) : IsOffset (.bin .sub (.sym s) (.const c))

inductive IsDifference : Expr → Prop where
  | symSub (s t : String) : IsDifference (.bin .sub (.sym s) (.sym t))

end Expr

/-- The value of a reference; an absent symbol counts as zero. -/
def SymbolRef.value (σ : String → Int64) (r : SymbolRef) : Int64 :=
  r.symbol.elim 0 σ - r.subtrahend.elim 0 σ + r.addend

namespace Expr

/-! ## References -/

/-- The shapes of an expression under marker `m`, with what each refers to. -/
inductive RefersUnder (m : Marker) : Expr → SymbolRef → Prop where
  | const (c : Int64) : RefersUnder m (.const c) ⟨m, none, none, c⟩
  | sym (s : String) : RefersUnder m (.sym s) ⟨m, some s, none, 0⟩
  | symAdd (s : String) (c : Int64) :
      RefersUnder m (.bin .add (.sym s) (.const c)) ⟨m, some s, none, c⟩
  | symSub (s : String) (c : Int64) :
      RefersUnder m (.bin .sub (.sym s) (.const c)) ⟨m, some s, none, -c⟩
  | difference (s t : String) (hm : m = .none) :
      RefersUnder m (.bin .sub (.sym s) (.sym t)) ⟨m, some s, some t, 0⟩

theorem refersUnder?_eq_some_iff {m : Marker} {e : Expr} {r : SymbolRef} :
    e.refersUnder? m = some r ↔ RefersUnder m e r := by
  constructor
  · intro h
    unfold refersUnder? at h
    split at h
    case h_5 s t =>
      split at h
      · next hm =>
        cases h
        exact .difference s t hm
      · cases h
    all_goals cases h
    all_goals constructor
  · rintro (_ | _ | _ | _ | ⟨s, t, rfl⟩) <;> rfl

theorem refers?_eq_some_iff {e : Expr} {r : SymbolRef} :
    e.refers? = some r ↔ e.marker ≠ .invalid ∧ RefersUnder e.marker e.unmarked r := by
  rw [← refersUnder?_eq_some_iff]
  cases e with
  | marked m inner =>
    rw [refers?]
    split <;> simp_all [marker, unmarked]
  | _ => simp [refers?, marker, unmarked]

theorem RefersUnder.marker_eq {m : Marker} {e : Expr} {r : SymbolRef} (h : RefersUnder m e r) :
    r.marker = m := by
  cases h <;> rfl

theorem marker_of_refers? {e : Expr} {r : SymbolRef} (h : e.refers? = some r) :
    r.marker = e.marker :=
  (refers?_eq_some_iff.mp h).2.marker_eq

theorem RefersUnder.symbol_mem_names {m : Marker} {e : Expr} {r : SymbolRef}
    (h : RefersUnder m e r) {s : String} (hs : r.symbol = some s) : s ∈ e.names := by
  cases h <;> cases hs <;> simp [names]

theorem RefersUnder.value_eq {m : Marker} {e : Expr} {r : SymbolRef} (h : RefersUnder m e r)
    (mark : Marker → Int64 → Int64) (σ : String → Int64) : e.value mark σ = r.value σ := by
  cases h <;> simp [value, SymbolRef.value, Int64.sub_eq_add_neg]

/-- What has a reference is an offset, or a difference without a marker. -/
theorem exists_refersUnder_iff {m : Marker} {e : Expr} :
    (∃ r, RefersUnder m e r) ↔ e.IsOffset ∨ m = .none ∧ e.IsDifference := by
  constructor
  · rintro ⟨_, _ | _ | _ | _ | ⟨s, t, hm⟩⟩
    case difference => exact .inr ⟨hm, .symSub s t⟩
    all_goals exact .inl (by constructor)
  · rintro ((_ | _ | _ | _) | ⟨hm, ⟨s, t⟩⟩)
    case inr => exact ⟨_, .difference s t hm⟩
    all_goals exact ⟨_, by constructor⟩

/-! ## Constants -/

theorem constant?_of_markerFree {e : Expr} (h : e.MarkerFree) (mark : Marker → Int64 → Int64)
    (σ : String → Int64) :
    e.constant? = if e.names = [] then some (e.value mark σ) else none := by
  induction e with
  | const c => rfl
  | sym s => rfl
  | bin op l r ihl ihr =>
    rw [constant?, ihl h.1, ihr h.2]
    by_cases hl : l.names = []
    · by_cases hr : r.names = []
      · cases op <;> simp [names, hl, hr, value, BinOp.apply]
      · simp [names, hl, hr]
    · simp [names, hl]
  | marked m e => exact h.elim

/-! ## Both together -/

/-- A reference has the marker of its expression and the value of what is under it, whatever symbols
and markers mean. No other shapes than these are references, and none is under the invalid marker; an
expression that is not marked counts as one under `none`. Without markers, the constants are the
expressions without symbols, and they are folded to their value. -/
theorem references_sound_complete (e : Expr) :
    (∀ r, e.refers? = some r → r.marker = e.marker ∧
      ∀ mark σ, e.unmarked.value mark σ = r.value σ) ∧
    (e.refers?.isSome ↔ e.marker ≠ .invalid ∧
      (e.unmarked.IsOffset ∨ e.marker = .none ∧ e.unmarked.IsDifference)) ∧
    (e.MarkerFree → (∀ v, e.constant? = some v → ∀ mark σ, e.value mark σ = v) ∧
      (e.constant? = none ↔ ∃ s, s ∈ e.names)) := by
  refine ⟨?_, ?_, ?_⟩
  · intro r hr
    exact ⟨marker_of_refers? hr, (refers?_eq_some_iff.mp hr).2.value_eq⟩
  · simp only [Option.isSome_iff_exists, refers?_eq_some_iff, exists_and_left,
      exists_refersUnder_iff]
  · intro hfree
    have hconst := constant?_of_markerFree hfree
    refine ⟨?_, ?_⟩
    · intro v hv mark σ
      rw [hconst mark σ] at hv
      split at hv
      · exact Option.some.inj hv
      · cases hv
    · rw [hconst (fun _ v => v) fun _ => 0]
      simp [List.eq_nil_iff_forall_not_mem]

/-- A constant is taken off a symbol modulo 2^64, a difference has no low half, and a constant may be
written as a difference. -/
theorem references_sound_complete_differences :
    ((Expr.marked .hi (.bin .sub (.sym "buf") (.const 8))).refers? =
        some ⟨.hi, some "buf", none, -8⟩ ∧
      ∀ mark σ, value mark σ (.bin .sub (.sym "buf") (.const 8)) = σ "buf" - 0 + -8) ∧
    ¬ (Expr.marked .lo (.bin .sub (.sym "end") (.sym "start"))).refers?.isSome ∧
    MarkerFree (.bin .sub (.const 3) (.const 5)) ∧
      ∀ mark σ, value mark σ (.bin .sub (.const 3) (.const 5)) = -2 := by
  have hhigh : (Expr.marked .hi (.bin .sub (.sym "buf") (.const 8))).refers? =
      some ⟨.hi, some "buf", none, -8⟩ := rfl
  have hfree : MarkerFree (.bin .sub (.const 3) (.const 5)) := ⟨trivial, trivial⟩
  refine ⟨⟨hhigh, ((references_sound_complete _).1 _ hhigh).2⟩, ?_, hfree,
    ((references_sound_complete _).2.2 hfree).1 _ (by decide)⟩
  rw [(references_sound_complete _).2.1]
  rintro ⟨-, h | ⟨h, -⟩⟩ <;> cases h

end Expr

end Dlx
