import Dlx.Proofs.Patch
import Dlx.Proofs.References
import Dlx.Source.Statement
import Mathlib.Data.List.TakeWhile

/-!
# The names in a source text

Labels, sections and symbols get their names from the source, and one reader reads them all. So what
that reader takes holds of every name in the statements of a text, however deep in an expression the
name stands.

Results:
* `IsName.ne_empty`, `IsName.nul_notMem`: a name has a character, and none of its characters is NUL.
* `spelled_readProgram`: every name in the statements of a source text is one.
-/
namespace Dlx

def Operand.names : Operand → List String
  | .expr e => e.names
  | _ => []

/-- The labels, sections and symbols that a statement names. -/
def Statement.names : Statement → List String
  | .label n | .enter n | .makeGlobal n => [n]
  | .data _ es => es.flatMap Expr.names
  | .inst i => i.operands.flatMap Operand.names

namespace Source

/-! ## Names -/

/-- What a source can spell as a name. -/
def IsName (n : String) : Prop :=
  ∃ c cs, n = String.ofList (c :: cs) ∧ isNameStart c ∧ ∀ d ∈ cs, isNameChar d

theorem IsName.ne_empty {n : String} (h : IsName n) : n ≠ "" := by
  obtain ⟨c, cs, rfl, -, -⟩ := h
  intro he
  have hlist := congrArg String.toList he
  rw [String.toList_ofList] at hlist
  cases hlist

theorem IsName.nul_notMem {n : String} (h : IsName n) : '\x00' ∉ n.toList := by
  obtain ⟨c, cs, rfl, hc, hcs⟩ := h
  rw [String.toList_ofList, List.mem_cons, not_or]
  refine ⟨?_, ?_⟩
  · rintro rfl
    exact absurd hc (by decide)
  · intro hmem
    exact absurd (hcs _ hmem) (by decide)

theorem isName_text : IsName ".text" :=
  ⟨'.', ['t', 'e', 'x', 't'], rfl, by decide, List.all_eq_true.mp (by decide)⟩

theorem isName_data : IsName ".data" :=
  ⟨'.', ['d', 'a', 't', 'a'], rfl, by decide, List.all_eq_true.mp (by decide)⟩

/-- All names of a list are spelled as names are. -/
def Spelled (names : List String) : Prop := ∀ n ∈ names, IsName n

theorem spelled_nil : Spelled [] := fun _ h => nomatch h

/-! ## Readers -/

/-- What a reader takes has a property, whatever it is given. -/
def Yields {α : Type} (r : Reader α) (P : α → Prop) : Prop :=
  ∀ cs a rest, r cs = some (a, rest) → P a

theorem yields_name : Yields name IsName := by
  intro cs n rest h
  cases cs with
  | nil => cases h
  | cons c cs =>
    rw [name] at h
    split at h
    · next hc =>
      cases h
      exact ⟨c, cs.takeWhile isNameChar, rfl, hc, fun d hd => List.mem_takeWhile_imp hd⟩
    · cases h

section Combined

variable {α : Type} {item : Reader α} {P : α → Prop}

theorem Yields.spaced (h : Yields item P) : Yields (spaced item) P := by
  intro cs a rest hr
  obtain ⟨⟨b, rest'⟩, hb, he⟩ := Option.map_eq_some_iff.mp hr
  cases he
  exact h _ _ _ hb

theorem Yields.moreItems (h : Yields item P) (fuel : Nat) (cs : List Char) :
    ∀ a ∈ (moreItems item fuel cs).1, P a := by
  induction fuel generalizing cs with
  | zero => exact fun a ha => nomatch ha
  | succ fuel ih =>
    rw [Source.moreItems]
    split
    · exact fun a ha => nomatch ha
    · next b rest hb =>
      obtain ⟨⟨_, rest'⟩, -, hb⟩ := Option.bind_eq_some_iff.mp hb
      exact List.forall_mem_cons.mpr ⟨h _ _ _ hb, ih rest⟩

theorem Yields.items (h : Yields item P) : Yields (items item) fun as => ∀ a ∈ as, P a := by
  intro cs as rest hr
  obtain ⟨⟨a, rest'⟩, ha, he⟩ := Option.map_eq_some_iff.mp hr
  cases he
  exact List.forall_mem_cons.mpr ⟨h _ _ _ ha, h.moreItems _ _⟩

theorem Yields.optionalItems (h : Yields item P) (cs : List Char) :
    ∀ a ∈ (optionalItems item cs).1, P a := by
  rw [Source.optionalItems]
  cases hi : Source.items item cs with
  | none => exact fun a ha => nomatch ha
  | some result => exact h.items _ _ _ hi

theorem Yields.whole (h : Yields item P) {cs : List Char} {a : α} (hr : whole item cs = some a) :
    P a := by
  unfold Source.whole at hr
  split at hr
  · next b hb =>
    cases hr
    exact h _ _ _ hb
  · cases hr

end Combined

/-! ## Expressions -/

theorem yields_atom : Yields atom fun e => Spelled e.names := by
  intro cs e rest h
  unfold atom at h
  split at h
  · cases h
    exact spelled_nil
  · obtain ⟨⟨n, rest'⟩, hn, he⟩ := Option.map_eq_some_iff.mp h
    cases he
    exact List.forall_mem_singleton.mpr (yields_name _ _ _ hn)

theorem spelled_closeMarked {modifier : String} {inner e : Expr} {cs rest : List Char}
    (hi : Spelled inner.names) (h : closeMarked modifier inner cs = some (e, rest)) :
    Spelled e.names := by
  unfold closeMarked at h
  split at h
  · cases h
  · cases h
  · cases h
    exact hi

/-- The three readers of expressions, whatever the fuel: terms have the property `Q`, and
expressions the property `P`, which a term has and a sum with a term keeps. The chain is given what
stands left of it. -/
theorem yields_expressionAt {P Q : Expr → Prop} (hatom : Yields atom Q)
    (hclose : ∀ {modifier inner cs e rest}, P inner →
      closeMarked modifier inner cs = some (e, rest) → Q e)
    (hsingle : ∀ {e}, Q e → P e) (hbin : ∀ {op l r}, P l → Q r → P (.bin op l r)) (fuel : Nat) :
    Yields (expressionAt fuel) P ∧ Yields (termAt fuel) Q ∧
      ∀ left cs, P left → P (chainAt fuel left cs).1 := by
  induction fuel with
  | zero => exact ⟨fun _ _ _ h => (nomatch h), fun _ _ _ h => (nomatch h), fun _ _ h => h⟩
  | succ fuel ih =>
    obtain ⟨hexpr, hterm, hchain⟩ := ih
    refine ⟨?_, ?_, ?_⟩
    · intro cs e rest h
      rw [expressionAt] at h
      split at h
      · cases h
      · next first rest' hfirst =>
        have hread := hchain first rest' (hsingle (hterm _ _ _ hfirst))
        rwa [Option.some.inj h] at hread
    · intro cs e rest h
      rw [termAt] at h
      split at h
      · exact hatom _ _ _ h
      · split at h
        · cases h
        · next inner rest' hinner => exact hclose (hexpr _ _ _ hinner) h
    · intro left cs hleft
      rw [chainAt]
      split
      · exact hleft
      · split
        · exact hleft
        · next right rest' hright => exact hchain _ _ (hbin hleft (hterm _ _ _ hright))

theorem yields_expression : Yields expression fun e => Spelled e.names := by
  intro cs e rest h
  have hfuel := yields_expressionAt yields_atom spelled_closeMarked id
    (fun hl hr => List.forall_mem_append.mpr ⟨hl, hr⟩) (cs.length + 2)
  exact hfuel.1 cs e rest h

/-! ## Instructions -/

def Written.names : Written → List String
  | .reg _ => []
  | .mem offset _ => offset.names
  | .expr e => e.names

/-- The expression of an operand, if there is one, has the property. -/
def Written.All (P : Expr → Prop) : Written → Prop
  | .reg _ => True
  | .mem e _ | .expr e => P e

theorem Written.All.spelled {w : Written} (h : w.All fun e => Spelled e.names) :
    Spelled w.names := by
  cases w with
  | reg r => exact spelled_nil
  | mem offset r => exact h
  | expr e => exact h

section Operands

variable {P : Expr → Prop} (hexpr : Yields expression P) (hzero : P (.const 0))
include hexpr hzero

theorem yields_memory : Yields memory (Written.All P) := by
  intro cs w rest h
  obtain ⟨⟨r, rest'⟩, -, he⟩ := Option.map_eq_some_iff.mp h
  cases he
  change P ((expression cs).getD (.const 0, cs)).1
  cases hx : expression cs with
  | none => exact hzero
  | some result => exact hexpr _ _ _ hx

theorem yields_written : Yields written (Written.All P) := by
  intro cs w rest h
  unfold written at h
  split at h
  · next hm =>
    cases h
    exact yields_memory hexpr hzero _ _ _ hm
  · split at h
    · cases h
      trivial
    · obtain ⟨⟨e, rest'⟩, hx, he⟩ := Option.map_eq_some_iff.mp h
      cases he
      exact hexpr _ _ _ hx

theorem yields_instruction : Yields instruction fun x => ∀ w ∈ x.2, w.All P := by
  intro cs x rest h
  obtain ⟨⟨mnemonic, rest'⟩, -, he⟩ := Option.map_eq_some_iff.mp h
  dsimp only at he
  split at he
  · cases he
    exact fun w hw => nomatch hw
  · split at he
    · cases he
      exact (yields_written hexpr hzero).spaced.optionalItems _
    · cases he
      exact fun w hw => nomatch hw

end Operands

theorem spelled_operandFor {cls : OperandClass} {e : Expr} {o : Operand} (he : Spelled e.names)
    (h : operandFor cls e = .ok o) : Spelled o.names := by
  unfold operandFor at h
  split at h <;> split at h <;> cases h
  · exact spelled_nil
  · exact he

theorem spelled_matchOperand {op : Opcode} {index : Nat} {slot : Slot} {w : Written} {o : Operand}
    (hw : Spelled w.names) (h : matchOperand op index slot w = .ok o) : Spelled o.names := by
  unfold matchOperand at h
  split at h
  · cases h
    exact spelled_nil
  · cases h
  · exact spelled_operandFor hw (Except.mapError_eq_ok_iff.mp h)
  · cases h

theorem spelled_matchOperands {op : Opcode} {index : Nat} {slots : List (Slot × Written)}
    {operands : List Operand} (hw : ∀ x ∈ slots, Spelled x.2.names)
    (h : matchOperands op index slots = .ok operands) : ∀ o ∈ operands, Spelled o.names := by
  induction slots generalizing index operands with
  | nil =>
    cases h
    exact fun o ho => nomatch ho
  | cons x rest ih =>
    obtain ⟨hx, hrest⟩ := List.forall_mem_cons.mp hw
    simp only [matchOperands, Except.bind_eq_ok_iff] at h
    obtain ⟨o, ho, os, hos, h⟩ := h
    cases h
    exact List.forall_mem_cons.mpr ⟨spelled_matchOperand hx ho, ih hrest hos⟩

theorem spelled_expandMemory {op : Opcode} {ws ws' : List Written}
    (hw : ∀ w ∈ ws, Spelled w.names) (h : expandMemory op ws = .ok ws') :
    ∀ w ∈ ws', Spelled w.names := by
  unfold expandMemory at h
  split at h
  · split at h
    · next r offset b =>
      cases h
      have hoffset : Spelled offset.names := hw (.mem offset b) (by simp)
      simpa [Written.names, Spelled] using hoffset
    · cases h
  · cases h
    exact hw

theorem spelled_matchInst {op : Opcode} {layout : Layout} {ws : List Written} {i : Inst}
    (hw : ∀ w ∈ ws, Spelled w.names) (h : matchInst op layout ws = .ok i) :
    Spelled (Statement.inst i).names := by
  simp only [matchInst, Except.bind_eq_ok_iff] at h
  obtain ⟨ws', hws', h⟩ := h
  split at h
  · obtain ⟨operands, hops, h⟩ := Except.bind_eq_ok_iff.mp h
    cases h
    have hslots : ∀ x ∈ layout.slots.zip ws', Spelled x.2.names := fun x hx =>
      spelled_expandMemory hw hws' x.2 (List.of_mem_zip hx).2
    have hall := spelled_matchOperands hslots hops
    intro n hn
    obtain ⟨o, ho, hn⟩ := List.mem_flatMap.mp hn
    exact hall o ho n hn
  · cases h

/-- An instruction that was read is written behind a mnemonic and matched with the layout of its
opcode. -/
theorem matchInst_of_readInst {cs : List Char} {i : Inst} (h : readInst cs = .ok i) :
    ∃ mnemonic ws op layout, whole instruction cs = some (mnemonic, ws) ∧
      Opcode.ofMnemonic? (lowerCase mnemonic) = some op ∧ op.layout? = some layout ∧
      matchInst op layout ws = .ok i := by
  unfold readInst at h
  split at h
  · cases h
  · next mnemonic ws hinst =>
    split at h
    · cases h
    · next op hop =>
      unfold buildInst at h
      split at h
      · cases h
      · next layout hl =>
        exact ⟨mnemonic, ws, op, layout, hinst, hop, hl, Except.mapError_eq_ok_iff.mp h⟩

theorem spelled_readInst {cs : List Char} {i : Inst} (h : readInst cs = .ok i) :
    Spelled (Statement.inst i).names := by
  obtain ⟨mnemonic, ws, op, layout, hinst, -, -, hmatch⟩ := matchInst_of_readInst h
  have hwritten := (yields_instruction yields_expression spelled_nil).whole hinst
  exact spelled_matchInst (fun w hw => (hwritten w hw).spelled) hmatch

/-! ## Lines -/

theorem spelled_readDirective {cs : List Char} {s : Statement} (h : readDirective cs = .ok s) :
    Spelled s.names := by
  unfold readDirective at h
  dsimp only at h
  split at h
  case h_1 heq =>
    cases h
    exact List.forall_mem_singleton.mpr (heq ▸ isName_text)
  case h_2 heq =>
    cases h
    exact List.forall_mem_singleton.mpr (heq ▸ isName_data)
  case h_3 =>
    split at h
    · next n hn =>
      cases h
      exact List.forall_mem_singleton.mpr (yields_name.spaced.whole hn)
    · cases h
  case h_4 | h_5 =>
    split at h
    · next n hn =>
      cases h
      exact yields_name.spaced.items.whole hn
    · cases h
    · cases h
  case h_6 =>
    split at h
    · cases h
    · split at h
      · next values hvalues =>
        cases h
        have hall := yields_expression.spaced.items.whole hvalues
        intro n hn
        obtain ⟨e, he, hn⟩ := List.mem_flatMap.mp hn
        exact hall e he n hn
      · cases h

theorem yields_label : Yields label IsName := by
  intro cs n rest h
  obtain ⟨⟨m, rest'⟩, hm, he⟩ := Option.bind_eq_some_iff.mp h
  obtain ⟨⟨_, rest''⟩, -, he⟩ := Option.map_eq_some_iff.mp he
  cases he
  exact yields_name.spaced _ _ _ hm

theorem spelled_takeLabels (fuel : Nat) (cs : List Char) : Spelled (takeLabels fuel cs).1 := by
  induction fuel generalizing cs with
  | zero => exact spelled_nil
  | succ fuel ih =>
    rw [takeLabels]
    split
    · exact spelled_nil
    · next n rest hn => exact List.forall_mem_cons.mpr ⟨yields_label _ _ _ hn, ih _⟩

theorem spelled_readLine {cs : List Char} {statements : List Statement}
    (h : readLine cs = .ok statements) : ∀ s ∈ statements, Spelled s.names := by
  unfold readLine at h
  generalize Text.trim (beforeComment cs) = code at h
  have hlabels : ∀ s ∈ (takeLabels code.length code).1.map Statement.label, Spelled s.names := by
    intro s hs
    obtain ⟨n, hn, rfl⟩ := List.mem_map.mp hs
    exact List.forall_mem_singleton.mpr (spelled_takeLabels _ _ n hn)
  dsimp only at h
  split at h
  · cases h
    exact hlabels
  · obtain ⟨s, hs, h⟩ := Except.bind_eq_ok_iff.mp h
    cases h
    exact List.forall_mem_append.mpr ⟨hlabels, List.forall_mem_singleton.mpr
      (spelled_readDirective (Except.mapError_eq_ok_iff.mp hs))⟩
  · obtain ⟨i, hi, h⟩ := Except.bind_eq_ok_iff.mp h
    cases h
    exact List.forall_mem_append.mpr
      ⟨hlabels, List.forall_mem_singleton.mpr (spelled_readInst hi)⟩

theorem spelled_readLines {line : Nat} {lines : List (List Char)} {statements : List Statement}
    (h : readLines line lines = .ok statements) : ∀ s ∈ statements, Spelled s.names := by
  induction lines generalizing line statements with
  | nil =>
    cases h
    exact fun s hs => nomatch hs
  | cons cs rest ih =>
    simp only [readLines, Except.bind_eq_ok_iff] at h
    obtain ⟨first, hfirst, more, hmore, h⟩ := h
    cases h
    exact List.forall_mem_append.mpr
      ⟨spelled_readLine (Except.mapError_eq_ok_iff.mp hfirst), ih hmore⟩

theorem spelled_readProgram {source : String} {statements : List Statement}
    (h : readProgram source = .ok statements) : ∀ s ∈ statements, Spelled s.names :=
  spelled_readLines h

end Source

end Dlx
