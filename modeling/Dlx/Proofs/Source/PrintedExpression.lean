import Dlx.Proofs.Source.Names
import Dlx.Proofs.Source.Printed

/-!
# Reading printed expressions

An expression is printed without parentheses of its own and without spaces, so the text of a sum
does not show how it was nested, and a negative constant puts its sign next to that of the sum
(`a--4`). What the reader can have read is printed so that it is read again: a chain of terms, each
added to or subtracted from all that stands left of it (`Expr.IsChain`).

The reader of a chain goes on as long as a sign follows. So the text of an expression is followed to
the point where the reader holds the expression and looks for the next sign (`ReadsChain`); for a
sum, that is where it was before the last term, and one turn more.

Results:
* `reads_chain`: the text of a chain is read as that chain, whatever follows that no name or number
  could go on with.
* `yields_isChain`: whatever is read as an expression is a chain.
* `expression_reads_text_iff`: the text of an expression is read back as that expression if it is a
  chain, and only then.
-/
namespace Dlx

/-- The markers that the source has a name for. -/
def Marker.Named (m : Marker) : Prop := m = .lo ∨ m = .hi ∨ m = .call

namespace Expr

/-- Neither a sum nor a difference. -/
def isTerm : Expr → Bool
  | .bin _ _ _ => false
  | _ => true

/-- A chain of terms from left to right. A term is a constant whose negative is one too, a symbol
with a name that the source can spell, or such a chain under a marker. -/
def IsChain : Expr → Prop
  | .const v => v ≠ Int64.minValue
  | .sym n => Source.whole Source.name n.toList = some n
  | .marked m e => m.Named ∧ e.IsChain
  | .bin _ l r => l.IsChain ∧ r.isTerm ∧ r.IsChain

theorem toList_text_bin (op : BinOp) (l r : Expr) :
    (Expr.bin op l r).text.toList = l.text.toList ++ (op.sign.toList ++ r.text.toList) := by
  rw [text, String.toList_append, String.toList_append, List.append_assoc]

theorem toList_text_marked {m : Marker} (hm : m.Named) (e : Expr) :
    (Expr.marked m e).text.toList = m.opening.toList ++ (e.text.toList ++ [')']) := by
  have htext : (Expr.marked m e).text = m.opening ++ e.text ++ ")" := by
    rcases hm with rfl | rfl | rfl <;> rfl
  rw [htext, String.toList_append, String.toList_append, List.append_assoc]
  rfl

end Expr

namespace Source

/-! ## Where a text starts -/

theorem whole_name_iff {n : String} : whole name n.toList = some n ↔ IsName n := by
  refine ⟨yields_name.whole, ?_⟩
  rintro ⟨c, cs, rfl, hc, hcs⟩
  have hname : name (c :: cs ++ []) = _ := name_cons hc hcs trivial
  rw [List.append_nil] at hname
  rw [String.toList_ofList, whole, hname]

theorem isSpace_of_isNameStart {c : Char} (h : isNameStart c = true) : Text.isSpace c = false := by
  refine Bool.eq_false_iff.mpr fun hspace => ?_
  simp only [Text.isSpace, Bool.or_eq_true, beq_iff_eq] at hspace
  rcases hspace with rfl | rfl <;> exact absurd h (by decide)

theorem isSpace_signed (v : Int) : ∃ c cs, (Text.signed v).toList = c :: cs ∧
    Text.isSpace c = false := by
  obtain ⟨c, cs, hcs, -⟩ := signed_cons v
  have hplain := isPlain_bounds (plain_signed v c (by simp [hcs]))
  exact ⟨c, cs, hcs, isSpace_eq_false (by omega)⟩

/-- The text of a chain has a first character, and that is no space. -/
theorem text_cons {e : Expr} (h : e.IsChain) :
    ∃ c cs, e.text.toList = c :: cs ∧ Text.isSpace c = false := by
  induction e with
  | const v => exact isSpace_signed v.toInt
  | sym n =>
    obtain ⟨c, cs, rfl, hc, -⟩ := whole_name_iff.mp h
    exact ⟨c, cs, String.toList_ofList, isSpace_of_isNameStart hc⟩
  | bin op l r ihl _ =>
    obtain ⟨c, cs, hcs, hc⟩ := ihl h.1
    exact ⟨c, _, by rw [Expr.toList_text_bin, hcs, List.cons_append], hc⟩
  | marked m e _ =>
    have hopening : ∃ cs, m.opening.toList = '%' :: cs := by
      rcases h.1 with rfl | rfl | rfl <;> exact ⟨_, rfl⟩
    obtain ⟨cs, hcs⟩ := hopening
    exact ⟨'%', _, by rw [Expr.toList_text_marked h.1, hcs, List.cons_append], by decide⟩

theorem skipSpaces_text {e : Expr} (h : e.IsChain) (rest : List Char) :
    skipSpaces (e.text.toList ++ rest) = e.text.toList ++ rest := by
  obtain ⟨c, cs, hcs, hc⟩ := text_cons h
  rw [hcs]
  exact skipSpaces_stops hc

/-! ## Terms -/

/-- The reader of terms takes the text of `e` for `e`, if no name or number goes on behind it. -/
def ReadsTerm (e : Expr) : Prop :=
  ∀ fuel rest, Stops isNameChar rest → e.text.toList.length ≤ fuel →
    termAt fuel (e.text.toList ++ rest) = some (e, rest)

/-- The reader of expressions takes the text of `e` for `e` and then looks for more terms. Each term
costs it less fuel than it has characters. -/
def ReadsChain (e : Expr) : Prop :=
  ∀ fuel rest, Stops isNameChar rest → e.text.toList.length ≤ fuel →
    ∃ left, fuel < left + e.text.toList.length ∧
      expressionAt (fuel + 1) (e.text.toList ++ rest) = some (chainAt left e rest)

theorem termAt_of_atom {cs rest : List Char} {e : Expr} {fuel : Nat} (hfuel : 0 < fuel)
    (hmarker : markerOpening cs = none) (hatom : atom cs = some (e, rest)) :
    termAt fuel cs = some (e, rest) := by
  obtain ⟨fuel, rfl⟩ := Nat.exists_eq_add_one_of_ne_zero (Nat.ne_of_gt hfuel)
  rw [termAt, hmarker]
  exact hatom

theorem readsTerm_const {v : Int64} (h : v ≠ Int64.minValue) : ReadsTerm (.const v) := by
  intro fuel rest hr hfuel
  have hlow : -(capacity 63 : Int) < v.toInt := by
    have hle := v.le_toInt
    have hne : v.toInt ≠ Int64.minValue.toInt := fun heq => h (Int64.toInt_inj.mp heq)
    rw [Int64.toInt_minValue] at hne
    exact Int.lt_iff_le_and_ne.mpr ⟨hle, Ne.symm hne⟩
  have hhigh : v.toInt < (capacity 63 : Int) := v.toInt_lt
  have hnumber := number_signed hlow hhigh hr
  obtain ⟨c, cs, hcs, hc, -⟩ := signed_cons v.toInt
  have htext : (Expr.const v).text.toList = c :: cs := hcs
  rw [Int64.ofInt_toInt, hcs] at hnumber
  rw [htext] at hfuel ⊢
  refine termAt_of_atom (Nat.lt_of_lt_of_le (Nat.succ_pos _) hfuel) (markerOpening_of_ne ?_) ?_
  · rintro rfl
    rcases hc with hc | hc <;> exact absurd hc (by decide)
  · rw [atom, hnumber]

theorem readsTerm_sym {n : String} (h : IsName n) : ReadsTerm (.sym n) := by
  intro fuel rest hr hfuel
  obtain ⟨c, cs, rfl, hc, hcs⟩ := h
  have htext : (Expr.sym (String.ofList (c :: cs))).text.toList = c :: cs := String.toList_ofList
  have hnumber : number (c :: cs ++ rest) = none := by
    have hminus : c ≠ '-' := by
      rintro rfl
      exact absurd hc (by decide)
    have hdigit : isDigit c = false := Bool.eq_false_iff.mpr fun hd => by
      rw [isNameStart_of_isDigit hd] at hc
      cases hc
    rw [List.cons_append, number_of_ne_minus hminus, numeral, hdigit]
    rfl
  rw [htext] at hfuel ⊢
  refine termAt_of_atom (Nat.lt_of_lt_of_le (Nat.succ_pos _) hfuel) (markerOpening_of_ne ?_) ?_
  · rintro rfl
    exact absurd hc (by decide)
  · rw [atom, hnumber, name_cons hc hcs hr]
    rfl

/-- The opening of a marker is read, and its modifier is known. -/
theorem markerOpening_opening {m : Marker} (hm : m.Named) (rest : List Char) :
    ∃ modifier, markerOpening (m.opening.toList ++ rest) = some (modifier, rest) ∧
      ∀ (e : Expr) (more : List Char),
        closeMarked modifier e (')' :: more) = some (.marked m e, more) := by
  rcases hm with rfl | rfl | rfl
  · exact ⟨"lo", rfl, fun _ _ => rfl⟩
  · exact ⟨"hi", rfl, fun _ _ => rfl⟩
  · exact ⟨"pcrel", rfl, fun _ _ => rfl⟩

/-- Where no sign follows, a chain is at its end. -/
theorem chainAt_of_no_sign {rest : List Char} (h : spaced sign rest = none) (fuel : Nat)
    (e : Expr) : chainAt fuel e rest = (e, rest) := by
  cases fuel with
  | zero => rfl
  | succ fuel => rw [chainAt, h]

theorem readsTerm_marked {m : Marker} (hm : m.Named) {e : Expr} (he : e.IsChain)
    (hread : ReadsChain e) : ReadsTerm (.marked m e) := by
  intro fuel rest _ hfuel
  rw [Expr.toList_text_marked hm] at hfuel ⊢
  have hopening : 2 ≤ m.opening.toList.length := by
    rcases hm with rfl | rfl | rfl <;> decide
  simp only [List.length_append, List.length_singleton] at hfuel
  obtain ⟨modifier, hmodifier, hclose⟩ :=
    markerOpening_opening hm (e.text.toList ++ ')' :: rest)
  obtain ⟨fuel, rfl⟩ : ∃ k, fuel = k + 2 := ⟨fuel - 2, by omega⟩
  obtain ⟨left, -, hinner⟩ := hread fuel (')' :: rest) rfl (by omega)
  have hend : chainAt left e (')' :: rest) = (e, ')' :: rest) := chainAt_of_no_sign rfl left e
  rw [List.append_assoc, List.append_assoc, List.singleton_append, termAt, hmodifier]
  simp only [skipSpaces_text he, hinner, hend]
  exact hclose e rest

/-! ## Chains -/

theorem ReadsTerm.readsChain {e : Expr} (hread : ReadsTerm e) (he : e.IsChain) : ReadsChain e := by
  intro fuel rest hr hfuel
  obtain ⟨c, cs, hcs, -⟩ := text_cons he
  refine ⟨fuel, by simp [hcs], ?_⟩
  rw [expressionAt, hread fuel rest hr hfuel]

theorem spaced_sign (op : BinOp) (cs : List Char) :
    spaced sign (op.sign.toList ++ cs) = some (op, skipSpaces cs) := by
  cases op <;> rfl

theorem stops_sign (op : BinOp) (cs : List Char) : Stops isNameChar (op.sign.toList ++ cs) := by
  cases op <;> rfl

theorem readsChain_bin (op : BinOp) {l r : Expr} (hl : ReadsChain l) (hr : ReadsTerm r)
    (hchain : r.IsChain) : ReadsChain (.bin op l r) := by
  intro fuel rest hstops hfuel
  have hsign : op.sign.toList.length = 1 := by cases op <;> rfl
  rw [Expr.toList_text_bin] at hfuel ⊢
  simp only [List.length_append, hsign] at hfuel ⊢
  obtain ⟨left, hleft, hfirst⟩ :=
    hl fuel (op.sign.toList ++ (r.text.toList ++ rest)) (stops_sign op _) (by omega)
  -- one turn of the chain reader takes the sign and the last term
  obtain ⟨left, rfl⟩ : ∃ k, left = k + 1 := ⟨left - 1, by omega⟩
  refine ⟨left, by omega, ?_⟩
  rw [List.append_assoc, List.append_assoc, hfirst, chainAt, spaced_sign]
  simp only [skipSpaces_text hchain, hr left rest hstops (by omega)]

theorem reads_chain {e : Expr} (h : e.IsChain) :
    ReadsChain e ∧ (e.isTerm → ReadsTerm e) := by
  induction e with
  | const v =>
    have hterm := readsTerm_const h
    exact ⟨hterm.readsChain h, fun _ => hterm⟩
  | sym n =>
    have hterm := readsTerm_sym (whole_name_iff.mp h)
    exact ⟨hterm.readsChain h, fun _ => hterm⟩
  | bin op l r ihl ihr =>
    obtain ⟨hl, hterm, hr⟩ := h
    exact ⟨readsChain_bin op (ihl hl).1 ((ihr hr).2 hterm) hr, fun hbin => nomatch hbin⟩
  | marked m e ih =>
    have hterm := readsTerm_marked h.1 h.2 (ih h.2).1
    exact ⟨hterm.readsChain h, fun _ => hterm⟩

theorem expression_text_of_isChain {e : Expr} (h : e.IsChain) :
    expression e.text.toList = some (e, []) := by
  obtain ⟨left, -, hread⟩ := (reads_chain h).1 (e.text.toList.length + 1) [] trivial (by omega)
  rw [List.append_nil, chainAt_of_no_sign rfl] at hread
  exact hread

/-! ## What can be read -/

theorem yields_numeral : Yields numeral (· < capacity 63) := by
  intro cs n rest h
  cases cs with
  | nil => cases h
  | cons c cs =>
    rw [numeral] at h
    split at h
    · obtain ⟨n, hn, he⟩ := Option.map_eq_some_iff.mp h
      cases he
      exact of_decide_eq_true (Option.filter_eq_some_iff.mp hn).2
    · cases h

theorem ofInt_ne_minValue {v : Int} (hl : -(capacity 63 : Int) < v) (hu : v < capacity 63) :
    Int64.ofInt v ≠ Int64.minValue := by
  intro heq
  have hvalue := congrArg Int64.toInt heq
  rw [Int64.toInt_ofInt_of_le (Int.le_of_lt hl) hu, Int64.toInt_minValue] at hvalue
  exact absurd hvalue (Int.ne_of_gt hl)

/-- A number is written as a sign and a size, and the size of the least of all is not one. -/
theorem yields_number : Yields number (· ≠ Int64.minValue) := by
  intro cs v rest h
  unfold number at h
  split at h
  all_goals
    obtain ⟨⟨n, _⟩, hn, he⟩ := Option.map_eq_some_iff.mp h
    cases he
    have hlt := yields_numeral _ _ _ hn
  · have hneg : -Int64.ofNat n = Int64.ofInt (-n) := (Int64.ofInt_neg n).symm
    rw [hneg]
    exact ofInt_ne_minValue (by omega) (by omega)
  · exact ofInt_ne_minValue (v := n) (by omega) (by omega)

theorem yields_atom_isChain : Yields atom fun e => e.isTerm ∧ e.IsChain := by
  intro cs e rest h
  unfold atom at h
  split at h
  · next v rest' hv =>
    cases h
    exact ⟨rfl, yields_number _ _ _ hv⟩
  · obtain ⟨⟨n, rest'⟩, hn, he⟩ := Option.map_eq_some_iff.mp h
    cases he
    exact ⟨rfl, whole_name_iff.mpr (yields_name _ _ _ hn)⟩

theorem named_ofName {modifier : String} (h : Marker.ofName modifier ≠ .invalid) :
    (Marker.ofName modifier).Named := by
  unfold Marker.ofName at h ⊢
  split at h
  all_goals simp_all [Marker.Named]

theorem isChain_closeMarked {modifier : String} {inner e : Expr} {cs rest : List Char}
    (hi : inner.IsChain) (h : closeMarked modifier inner cs = some (e, rest)) :
    e.isTerm ∧ e.IsChain := by
  unfold closeMarked at h
  split at h
  · cases h
  · cases h
  · next hvalid =>
    cases h
    exact ⟨rfl, named_ofName hvalid, hi⟩

theorem yields_isChain : Yields expression Expr.IsChain := by
  intro cs e rest h
  have hfuel := yields_expressionAt yields_atom_isChain isChain_closeMarked And.right
    (fun hl hr => ⟨hl, hr⟩) (cs.length + 2)
  exact hfuel.1 cs e rest h

/-- Printed expressions are read back. The reader of expressions takes the whole text of a chain of
constants, symbols and marked chains and returns that chain, and there is no other expression whose
text it would take so. -/
theorem expression_reads_text_iff (e : Expr) :
    expression e.text.toList = some (e, []) ↔ e.IsChain :=
  ⟨yields_isChain _ _ _, expression_text_of_isChain⟩

example : expression "a--4+%lo(b+7-%hi(-1))".toList =
    some (.bin .add (.bin .sub (.sym "a") (.const (-4))) (.marked .lo
      (.bin .sub (.bin .add (.sym "b") (.const 7)) (.marked .hi (.const (-1))))), []) := by
  decide +kernel

end Source

end Dlx
