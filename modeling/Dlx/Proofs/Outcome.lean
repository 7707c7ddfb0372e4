/-!
# Outcomes

Computations that end with a value or an error: what a sequence of them says about its steps, and
how two of them are compared. A computation with tables can end in a third way, at an index that a
table does not have. It is compared with one that has no tables, to see that it never does.

Results:
* `Except.bind_eq_ok_iff`, `Except.bind_eq_error_iff`: how a sequence of two ends.
* `Paired.bind`: two computations stay side by side from step to step.
* `Inside.ne_outside`: a computation with tables that stays beside one without them uses no index
  outside.
-/

/-! ## One computation -/

theorem Except.bind_eq_ok_iff {ε α β : Type} {x : Except ε α} {f : α → Except ε β} {b : β} :
    (x >>= f) = .ok b ↔ ∃ a, x = .ok a ∧ f a = .ok b := by
  cases x with
  | error e => simp [bind, Except.bind]
  | ok a => simp [bind, Except.bind]

theorem Except.bind_eq_error_iff {ε α β : Type} {x : Except ε α} {f : α → Except ε β} {e : ε} :
    (x >>= f) = .error e ↔ x = .error e ∨ ∃ a, x = .ok a ∧ f a = .error e := by
  cases x with
  | error e' => simp [bind, Except.bind]
  | ok a => simp [bind, Except.bind]

/-- A last step that cannot fail has no part in an error. -/
theorem Except.bind_pure_eq_error_iff {ε α β : Type} {x : Except ε α} {f : α → β} {e : ε} :
    (x >>= fun a => pure (f a)) = .error e ↔ x = .error e := by
  cases x with
  | error e' => simp [bind, Except.bind]
  | ok a => simp [bind, Except.bind, pure, Except.pure]

/-- Two computations in a row end with a value exactly if each does. -/
theorem Except.both_isOk_iff {ε α β γ : Type} {x : Except ε α} {y : Except ε β} {g : α → β → γ} :
    (∃ r, (x >>= fun a => y >>= fun b => pure (g a b)) = .ok r) ↔
      (∃ a, x = .ok a) ∧ ∃ b, y = .ok b := by
  cases x <;> cases y <;> simp [bind, Except.bind, pure, Except.pure]

theorem Except.eq_ok_of_toOption {ε α : Type} {x : Except ε α} {a : α}
    (h : x.toOption = some a) : x = .ok a := by
  cases x with
  | error e => cases h
  | ok b => exact congrArg Except.ok (Option.some.inj h)

theorem Except.mapError_ok {ε ε' α : Type} (g : ε → ε') (a : α) :
    (Except.ok a).mapError g = .ok a := rfl

theorem Except.mapError_error {ε ε' α : Type} (g : ε → ε') (e : ε) :
    (Except.error e : Except ε α).mapError g = .error (g e) := rfl

theorem Except.mapError_eq_ok_iff {ε ε' α : Type} {x : Except ε α} {g : ε → ε'} {a : α} :
    x.mapError g = .ok a ↔ x = .ok a := by
  cases x with
  | error e => simp [Except.mapError_error]
  | ok b => simp [Except.mapError_ok]

theorem Except.mapError_eq_error_iff {ε ε' α : Type} {x : Except ε α} {g : ε → ε'} {e : ε'} :
    x.mapError g = .error e ↔ ∃ e', x = .error e' ∧ g e' = e := by
  cases x with
  | error e' => simp [Except.mapError_error]
  | ok b => simp [Except.mapError_ok]

namespace Dlx

/-! ## Two computations -/

/-- Two results of which both are values or both are errors, in relation. -/
inductive Paired {ε ε' α β : Type} (E : ε → ε' → Prop) (R : α → β → Prop) :
    Except ε α → Except ε' β → Prop
  | ok {a : α} {b : β} (h : R a b) : Paired E R (.ok a) (.ok b)
  | error {e : ε} {e' : ε'} (h : E e e') : Paired E R (.error e) (.error e')

section

variable {ε ε' α β γ δ : Type} {E : ε → ε' → Prop} {R : α → β → Prop} {S : γ → δ → Prop}
  {x : Except ε α} {y : Except ε' β}

theorem Paired.bind (h : Paired E R x y) {f : α → Except ε γ} {g : β → Except ε' δ}
    (hfg : ∀ a b, x = .ok a → y = .ok b → R a b → Paired E S (f a) (g b)) :
    Paired E S (x >>= f) (y >>= g) := by
  cases h with
  | ok h => exact hfg _ _ rfl rfl h
  | error h => exact .error h

theorem Paired.mono (h : Paired E R x y) {R' : α → β → Prop} (hR : ∀ a b, R a b → R' a b) :
    Paired E R' x y := by
  cases h with
  | ok h => exact .ok (hR _ _ h)
  | error h => exact .error h

/-- A last step of the one computation that cannot fail. -/
theorem Paired.bind_pure (h : Paired E R x y) {f : α → γ} {R' : γ → β → Prop}
    (hf : ∀ a b, R a b → R' (f a) b) : Paired E R' (x >>= fun a => pure (f a)) y := by
  cases h with
  | ok h => exact .ok (hf _ _ h)
  | error h => exact .error h

end

/-- Two computations that give the same value. -/
theorem Paired.bind_same {ε ε' α γ δ : Type} {E : ε → ε' → Prop} {S : γ → δ → Prop}
    {x : Except ε α} {y : Except ε' α} (h : Paired E (fun a b => b = a) x y)
    {f : α → Except ε γ} {g : α → Except ε' δ}
    (hfg : ∀ a, x = .ok a → Paired E S (f a) (g a)) : Paired E S (x >>= f) (y >>= g) :=
  h.bind fun a _ ha _ hb => hb ▸ hfg a ha

theorem Paired.of_eq {ε α : Type} {E : ε → ε → Prop} (hE : ∀ e, E e e) {x y : Except ε α}
    (h : y = x) : Paired E (fun a b => b = a) x y := by
  subst h
  cases y with
  | ok a => exact .ok rfl
  | error e => exact .error (hE e)

/-! ## Computations with tables -/

/-- How a computation with tables ends without a result: with an error of its own, or at an index
that a table does not have. -/
inductive Stopped (ε : Type) where
  | failed (e : ε)
  | outside (index length : Nat)

section

variable {ε α : Type}

/-- The entry of a table at an index. -/
def entryAt (table : List α) (index : Nat) : Except (Stopped ε) α :=
  match table[index]? with
  | some entry => .ok entry
  | none => .error (.outside index table.length)

/-- The table with another entry at an index. -/
def storeAt (table : List α) (index : Nat) (entry : α) : Except (Stopped ε) (List α) :=
  if index < table.length then .ok (table.set index entry)
  else .error (.outside index table.length)

/-- The table with the entry at an index changed. -/
def modifyAt (table : List α) (index : Nat) (f : α → α) : Except (Stopped ε) (List α) := do
  storeAt table index (f (← entryAt table index))

theorem entryAt_of_getElem? {table : List α} {index : Nat} {entry : α}
    (h : table[index]? = some entry) : entryAt (ε := ε) table index = .ok entry := by
  rw [entryAt, h]

theorem storeAt_of_lt {table : List α} {index : Nat} (h : index < table.length) (entry : α) :
    storeAt (ε := ε) table index entry = .ok (table.set index entry) :=
  if_pos h

theorem modifyAt_of_lt {table : List α} {index : Nat} (h : index < table.length) (f : α → α) :
    modifyAt (ε := ε) table index f = .ok (table.modify index f) := by
  rw [modifyAt, entryAt_of_getElem? (List.getElem?_eq_getElem h)]
  refine (storeAt_of_lt h _).trans (congrArg Except.ok ?_)
  refine List.ext_getElem? fun i => ?_
  rw [List.getElem?_set, List.getElem?_modify]
  by_cases hi : index = i
  · subst hi
    simp [h]
  · simp [hi]

end

/-- The second computation has tables and stays beside the first, which has none. -/
abbrev Inside {ε α β : Type} (R : α → β → Prop) (x : Except ε α) (y : Except (Stopped ε) β) :
    Prop :=
  Paired (fun e e' => e' = .failed e) R x y

section

variable {ε α : Type}

theorem inside_mapError (x : Except ε α) : Inside (fun a b => b = a) x (x.mapError .failed) := by
  cases x with
  | ok a => exact .ok rfl
  | error e => exact .error rfl

theorem Inside.eq {x : Except ε α} {y : Except (Stopped ε) α} (h : Inside (fun a b => b = a) x y) :
    y = x.mapError .failed := by
  cases h with
  | ok h => rw [h, Except.mapError_ok]
  | error h => rw [h, Except.mapError_error]

theorem Inside.ne_outside {β : Type} {R : α → β → Prop} {x : Except ε α}
    {y : Except (Stopped ε) β} (h : Inside R x y) (index length : Nat) :
    y ≠ .error (.outside index length) := by
  intro hy
  cases h with
  | ok h => cases hy
  | error h =>
    cases hy
    cases h

end

end Dlx
