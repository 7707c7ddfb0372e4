import Dlx.Proofs.Recoding
import Dlx.Proofs.Text
import Dlx.Source.Statement

/-!
# Reading printed operands

Operands are printed so that they can be read again. Each reader is followed over the text that was
printed for its value, with whatever may come behind it there: a comma, a parenthesis or the end of
the line.

Results:
* `number_signed`, `register_text`: printed numbers and registers are read back.
* `items_printed`: so are operands with commas between them.
-/
namespace Dlx.Source

/-! ## Where lexemes end -/

/-- Nothing more of a lexeme: the text is at its end or goes on with another sort of character. -/
def Stops (p : Char → Bool) : List Char → Prop
  | [] => True
  | c :: _ => p c = false

theorem takeWhile_stops {p : Char → Bool} {l rest : List Char} (hl : ∀ c ∈ l, p c = true)
    (hr : Stops p rest) : (l ++ rest).takeWhile p = l := by
  rw [List.takeWhile_append_of_pos hl]
  cases rest with
  | nil => simp
  | cons c rest => rw [List.takeWhile_cons_of_neg (by simpa [Stops] using hr), List.append_nil]

theorem dropWhile_stops {p : Char → Bool} {l rest : List Char} (hl : ∀ c ∈ l, p c = true)
    (hr : Stops p rest) : (l ++ rest).dropWhile p = rest := by
  rw [List.dropWhile_append_of_pos hl]
  cases rest with
  | nil => rfl
  | cons c rest => exact List.dropWhile_cons_of_neg (by simpa [Stops] using hr)

theorem Stops.mono {p q : Char → Bool} {cs : List Char} (h : Stops q cs)
    (hpq : ∀ c, p c = true → q c = true) : Stops p cs := by
  cases cs with
  | nil => trivial
  | cons c cs => exact Bool.eq_false_iff.mpr fun hp => Bool.eq_false_iff.mp h (hpq c hp)

theorem skipSpaces_stops {cs : List Char} (h : Stops Text.isSpace cs) : skipSpaces cs = cs :=
  dropWhile_stops (l := []) (fun _ h => nomatch h) h

theorem spaced_of_read {α : Type} {item : Reader α} {cs rest : List Char} {a : α}
    (h : item (skipSpaces cs) = some (a, rest)) : spaced item cs = some (a, skipSpaces rest) := by
  rw [spaced, h]
  rfl

/-- What stands behind an operand as printed. -/
def AtEnd : List Char → Prop
  | [] => True
  | c :: _ => c = ','

/-- What stands behind a number or a register as printed. -/
def AtClose : List Char → Prop
  | [] => True
  | c :: _ => c = ',' ∨ c = '(' ∨ c = ')'

theorem AtEnd.atClose {rest : List Char} (h : AtEnd rest) : AtClose rest := by
  cases rest with
  | nil => trivial
  | cons c rest => exact .inl h

/-- No lexeme goes on there. -/
theorem AtClose.stops {rest : List Char} (h : AtClose rest) {p : Char → Bool}
    (hp : p ',' = false ∧ p '(' = false ∧ p ')' = false) : Stops p rest := by
  cases rest with
  | nil => trivial
  | cons c rest =>
    rcases h with rfl | rfl | rfl
    · exact hp.1
    · exact hp.2.1
    · exact hp.2.2

/-! ## Characters -/

theorem digit_of_isDigit {c : Char} (h : isDigit c = true) : ∃ d < 10, c = d.digitChar := by
  simp only [isDigit, Bool.and_eq_true, decide_eq_true_eq, Char.le_def, UInt32.le_iff_toNat_le] at h
  have hlow : 48 ≤ c.toNat := h.1
  have hhigh : c.toNat ≤ 57 := h.2
  refine ⟨c.toNat - 48, by omega, ?_⟩
  apply Char.toNat_inj.mp
  rw [Nat.toNat_digitChar_of_lt_ten (by omega)]
  omega

theorem isNameStart_of_isDigit {c : Char} (h : isDigit c = true) : isNameStart c = false := by
  obtain ⟨d, hd, rfl⟩ := digit_of_isDigit h
  have hall : ∀ d < 10, isNameStart d.digitChar = false := by decide
  exact hall d hd

/-- The characters of operands as printed. -/
def isPlain (c : Char) : Bool := isLetter c || isDigit c || c == '-' || c == '(' || c == ')'

/-- None of them separates operands, stands behind a label or starts a comment. -/
theorem isPlain_bounds {c : Char} (h : isPlain c = true) :
    40 ≤ c.toNat ∧ c.toNat ≤ 122 ∧ c.toNat ≠ 44 ∧ c.toNat ≠ 58 ∧ c.toNat ≠ 59 := by
  simp only [isPlain, isLetter, isDigit, Bool.or_eq_true, Bool.and_eq_true, decide_eq_true_eq,
    beq_iff_eq, Char.le_def, UInt32.le_iff_toNat_le] at h
  rcases h with (((h | h) | rfl) | rfl) | rfl
  · rcases h with ⟨hlow, hhigh⟩ | ⟨hlow, hhigh⟩
    · change 97 ≤ c.toNat at hlow
      change c.toNat ≤ 122 at hhigh
      omega
    · change 65 ≤ c.toNat at hlow
      change c.toNat ≤ 90 at hhigh
      omega
  · obtain ⟨hlow, hhigh⟩ := h
    change 48 ≤ c.toNat at hlow
    change c.toNat ≤ 57 at hhigh
    omega
  all_goals decide

theorem isBlank_eq_false {c : Char} (hlow : 33 ≤ c.toNat) (hhigh : c.toNat ≤ 0x84) :
    Text.isBlank c = false := by
  have hall : ∀ n ∈ Text.blankPoints, n ≤ 32 ∨ 0x85 ≤ n := by decide
  rw [Text.isBlank, List.contains_eq_mem, decide_eq_false_iff_not]
  intro hmem
  have := hall _ hmem
  omega

theorem isBlank_of_isPlain {c : Char} (h : isPlain c = true) : Text.isBlank c = false := by
  have hbounds := isPlain_bounds h
  exact isBlank_eq_false (by omega) (by omega)

theorem isSpace_eq_false {c : Char} (h : 33 ≤ c.toNat) : Text.isSpace c = false := by
  simp only [Text.isSpace, Bool.or_eq_false_iff, beq_eq_false_iff_ne]
  constructor
  · rintro rfl
    exact absurd h (by decide)
  · rintro rfl
    exact absurd h (by decide)

theorem stops_append {p : Char → Bool} {l : List Char} (hne : l ≠ []) (hl : ∀ c ∈ l, p c = false)
    (rest : List Char) : Stops p (l ++ rest) := by
  obtain ⟨c, cs, rfl⟩ := List.exists_cons_of_ne_nil hne
  exact hl c List.mem_cons_self

/-! ## Names and registers -/

theorem name_cons {c : Char} {cs rest : List Char} (hc : isNameStart c = true)
    (hcs : ∀ d ∈ cs, isNameChar d = true) (hr : Stops isNameChar rest) :
    name (c :: cs ++ rest) = some (String.ofList (c :: cs), rest) := by
  rw [List.cons_append, name, if_pos hc, takeWhile_stops hcs hr, dropWhile_stops hcs hr]

theorem isDigit_of_mem_decimal {n : Nat} {c : Char} (h : c ∈ (Text.decimal n).toList) :
    isDigit c = true := by
  rw [Text.decimal, String.toList_ofList] at h
  obtain ⟨d, hd, rfl⟩ := Text.mem_toDigits (by decide) h
  have hall : ∀ d < 10, isDigit d.digitChar = true := by decide
  exact hall d hd

theorem decimal_cons (n : Nat) : ∃ c cs, (Text.decimal n).toList = c :: cs ∧ isDigit c = true ∧
    ∀ d ∈ cs, isDigit d = true := by
  have hne : (Text.decimal n).toList ≠ [] := by
    rw [Text.decimal, String.toList_ofList]
    exact Nat.toDigits_ne_nil
  obtain ⟨c, cs, hcs⟩ := List.exists_cons_of_ne_nil hne
  have hmem : ∀ d ∈ (Text.decimal n).toList, isDigit d = true := fun d hd => isDigit_of_mem_decimal hd
  rw [hcs] at hmem
  exact ⟨c, cs, hcs, List.forall_mem_cons.mp hmem⟩

theorem isNameChar_of_isDigit {c : Char} (h : isDigit c = true) : isNameChar c = true := by
  simp [isNameChar, h]

theorem toList_text (r : Reg) : r.text.toList = 'r' :: (Text.decimal r.num.val).toList := by
  rw [Reg.text, String.toList_append]
  rfl

theorem name_text (r : Reg) {rest : List Char} (hr : AtClose rest) :
    name (r.text.toList ++ rest) = some (r.text, rest) := by
  have hdigits : ∀ d ∈ (Text.decimal r.num.val).toList, isNameChar d = true :=
    fun d hd => isNameChar_of_isDigit (isDigit_of_mem_decimal hd)
  rw [toList_text, name_cons (by decide) hdigits (hr.stops (by decide)), ← toList_text,
    String.ofList_toList]

theorem ofName?_text (r : Reg) : Reg.ofName? r.text = some r := by
  have hall : ∀ n : Fin 32, Reg.ofName? (Reg.mk n).text = some ⟨n⟩ := by decide +kernel
  exact hall r.num

theorem register_text (r : Reg) {rest : List Char} (hr : AtClose rest) :
    register (r.text.toList ++ rest) = some (r, rest) := by
  simp only [register, name_text r hr, Option.bind_some, ofName?_text, Option.map_some]

/-! ## Numbers -/

theorem magnitude?_decimal {n : Nat} (h : n < capacity 63) :
    magnitude? (Text.decimal n).toList = some n := by
  have hvalue : Text.readNat? 10 (Text.decimal n).toList = some n := by
    rw [Text.decimal, String.toList_ofList, Text.readNat?_toDigits (by decide) (by decide)]
  unfold magnitude?
  split
  · next digits heq =>
    exact absurd (isDigit_of_mem_decimal (c := 'x') (n := n) (by simp [heq])) (by decide)
  · next digits heq =>
    exact absurd (isDigit_of_mem_decimal (c := 'X') (n := n) (by simp [heq])) (by decide)
  · rw [hvalue, Option.filter_some, if_pos (by simpa using h)]

theorem magnitude?_hex {width n : Nat} (h : n < capacity 63) :
    magnitude? ('0' :: 'x' :: (Text.hex width n).toList) = some n := by
  simp only [magnitude?, Text.readNat?_hex, Option.filter_some, h, decide_true, if_true]

theorem numeral_of_magnitude? {c : Char} {cs rest : List Char} {n : Nat} (hc : isDigit c = true)
    (hcs : ∀ d ∈ cs, (isLetter d || isDigit d) = true) (hr : Stops isNameChar rest)
    (h : magnitude? (c :: cs) = some n) : numeral (c :: cs ++ rest) = some (n, rest) := by
  have hstops : Stops (fun d => isLetter d || isDigit d) rest := hr.mono fun d hd => by
    rcases Bool.or_eq_true_iff.mp hd with hd | hd <;> simp [isNameChar, isNameStart, hd]
  rw [List.cons_append, numeral, if_pos hc]
  simp only [takeWhile_stops hcs hstops, dropWhile_stops hcs hstops, h, Option.map_some]

theorem numeral_decimal {n : Nat} (h : n < capacity 63) {rest : List Char}
    (hr : Stops isNameChar rest) :
    numeral ((Text.decimal n).toList ++ rest) = some (n, rest) := by
  have hmagnitude := magnitude?_decimal h
  obtain ⟨c, cs, hcs, hc, hrest⟩ := decimal_cons n
  rw [hcs] at hmagnitude ⊢
  exact numeral_of_magnitude? hc (fun d hd => by simp [hrest d hd]) hr hmagnitude

theorem number_of_ne_minus {c : Char} {cs : List Char} (h : c ≠ '-') :
    number (c :: cs) = (numeral (c :: cs)).map fun (n, rest) => (Int64.ofNat n, rest) := by
  unfold number
  split
  · next heq => exact absurd (List.cons.inj heq).1 h
  · rfl

/-- A number that was printed with its sign is read back, unless it is the least of all. -/
theorem number_signed {v : Int} (hl : -(capacity 63 : Int) < v) (hu : v < capacity 63)
    {rest : List Char} (hr : Stops isNameChar rest) :
    number ((Text.signed v).toList ++ rest) = some (Int64.ofInt v, rest) := by
  cases v with
  | ofNat n =>
    have hn : n < capacity 63 := by simpa using hu
    have hread := numeral_decimal hn hr
    obtain ⟨c, cs, hcs, hdigit, -⟩ := decimal_cons n
    have hc : c ≠ '-' := by
      intro hc
      rw [hc] at hdigit
      exact absurd hdigit (by decide)
    rw [Text.signed, hcs, List.cons_append, number_of_ne_minus hc, ← List.cons_append, ← hcs, hread]
    rfl
  | negSucc n =>
    have hn : n + 1 < capacity 63 := by
      rw [Int.negSucc_eq] at hl
      omega
    have hminus : (Text.signed (.negSucc n)).toList = '-' :: (Text.decimal (n + 1)).toList := by
      rw [Text.signed, String.toList_append]
      rfl
    have hvalue : -Int64.ofNat (n + 1) = Int64.ofInt (.negSucc n) := by
      rw [Int.negSucc_eq, Int64.ofInt_neg]
      rfl
    rw [hminus, List.cons_append, number, numeral_decimal hn hr]
    exact congrArg (fun v => some (v, rest)) hvalue

/-! ## Expressions -/

/-- An atom that stands alone is the whole expression. -/
theorem expression_of_atom {cs rest : List Char} {e : Expr} (hmarker : markerOpening cs = none)
    (hatom : atom cs = some (e, rest)) (hr : AtClose rest) : expression cs = some (e, rest) := by
  have hsign : spaced sign rest = none := by
    have hspace : skipSpaces rest = rest := skipSpaces_stops (hr.stops (by decide))
    rw [spaced, hspace]
    cases rest with
    | nil => rfl
    | cons c rest => rcases hr with rfl | rfl | rfl <;> rfl
  rw [expression, expressionAt, termAt, hmarker]
  simp only [hatom, chainAt, hsign]

theorem markerOpening_of_ne {c : Char} {cs : List Char} (h : c ≠ '%') :
    markerOpening (c :: cs) = none := by
  unfold markerOpening
  split
  · next heq => exact absurd (List.cons.inj heq).1 h
  · rfl

theorem signed_cons (v : Int) : ∃ c cs, (Text.signed v).toList = c :: cs ∧
    (isDigit c = true ∨ c = '-') ∧ ∀ d ∈ cs, isDigit d = true := by
  cases v with
  | ofNat n =>
    obtain ⟨c, cs, hcs, hc, hdigits⟩ := decimal_cons n
    exact ⟨c, cs, hcs, .inl hc, hdigits⟩
  | negSucc n =>
    refine ⟨'-', (Text.decimal (n + 1)).toList, ?_, .inr rfl, fun d hd => isDigit_of_mem_decimal hd⟩
    rw [Text.signed, String.toList_append]
    rfl

theorem expression_signed {v : Int} (hl : -(capacity 63 : Int) < v) (hu : v < capacity 63)
    {rest : List Char} (hr : AtClose rest) :
    expression ((Text.signed v).toList ++ rest) = some (.const (Int64.ofInt v), rest) := by
  refine expression_of_atom ?_ ?_ hr
  · obtain ⟨c, cs, hcs, hc, -⟩ := signed_cons v
    rw [hcs]
    refine markerOpening_of_ne ?_
    intro hpercent
    subst hpercent
    rcases hc with hc | hc
    · exact absurd hc (by decide)
    · exact absurd hc (by decide)
  · rw [atom, number_signed hl hu (hr.stops (by decide))]

theorem expression_text (r : Reg) {rest : List Char} (hr : AtClose rest) :
    expression (r.text.toList ++ rest) = some (.sym r.text, rest) := by
  have hname := name_text r hr
  refine expression_of_atom ?_ ?_ hr
  · rw [toList_text]
    exact markerOpening_of_ne (by decide)
  · have hnumber : number (r.text.toList ++ rest) = none := by
      rw [toList_text, List.cons_append, number_of_ne_minus (by decide)]
      rfl
    rw [atom, hnumber, hname]
    rfl

theorem expression_hex {width n : Nat} (h : n < capacity 63) {rest : List Char} (hr : AtClose rest) :
    expression ('0' :: 'x' :: (Text.hex width n).toList ++ rest) =
      some (.const (Int64.ofNat n), rest) := by
  have htail : ∀ d ∈ 'x' :: (Text.hex width n).toList, (isLetter d || isDigit d) = true := by
    refine List.forall_mem_cons.mpr ⟨by decide, ?_⟩
    intro d hd
    obtain ⟨k, hk, rfl⟩ := Text.mem_hex hd
    have hall : ∀ k < 16, (isLetter k.digitChar || isDigit k.digitChar) = true := by decide
    exact hall k hk
  have hnumeral := numeral_of_magnitude? (by decide) htail (hr.stops (by decide))
    (@magnitude?_hex width n h)
  have hnumber : number ('0' :: 'x' :: (Text.hex width n).toList ++ rest) =
      some (Int64.ofNat n, rest) := by
    rw [List.cons_append, number_of_ne_minus (by decide), ← List.cons_append, hnumeral]
    rfl
  exact expression_of_atom (markerOpening_of_ne (by decide)) (by rw [atom, hnumber]) hr

/-! ## Operands -/

theorem base_atEnd {rest : List Char} (h : AtEnd rest) : base rest = none := by
  cases rest with
  | nil => rfl
  | cons c rest =>
    cases h
    rfl

theorem written_reg (r : Reg) {rest : List Char} (hr : AtEnd rest) :
    written (r.text.toList ++ rest) = some (.reg r, rest) := by
  have hmemory : memory (r.text.toList ++ rest) = none := by
    simp only [memory, expression_text r hr.atClose, Option.getD_some, base_atEnd hr, Option.map_none]
  rw [written, hmemory, register_text r hr.atClose]

theorem written_imm {v : Int} (hl : -(capacity 63 : Int) < v) (hu : v < capacity 63)
    {rest : List Char} (hr : AtEnd rest) :
    written ((Text.signed v).toList ++ rest) = some (.expr (.const (Int64.ofInt v)), rest) := by
  have hexpression := expression_signed hl hu hr.atClose
  have hmemory : memory ((Text.signed v).toList ++ rest) = none := by
    simp only [memory, hexpression, Option.getD_some, base_atEnd hr, Option.map_none]
  have hregister : register ((Text.signed v).toList ++ rest) = none := by
    obtain ⟨c, cs, hcs, hc, -⟩ := signed_cons v
    have hstart : isNameStart c = false := by
      rcases hc with hc | rfl
      · exact isNameStart_of_isDigit hc
      · decide
    rw [hcs, register, List.cons_append, name, hstart]
    rfl
  rw [written, hmemory, hregister, hexpression]
  rfl

theorem written_mem {v : Int} (hl : -(capacity 63 : Int) < v) (hu : v < capacity 63) (r : Reg)
    (rest : List Char) :
    written ((Text.signed v).toList ++ '(' :: r.text.toList ++ ')' :: rest) =
      some (.mem (.const (Int64.ofInt v)) r, rest) := by
  have hclose : AtClose ('(' :: (r.text.toList ++ ')' :: rest)) := .inr (.inl rfl)
  have hexpression := expression_signed hl hu hclose
  have hregister : spaced register (r.text.toList ++ ')' :: rest) = some (r, ')' :: rest) := by
    have hstart : skipSpaces (r.text.toList ++ ')' :: rest) = r.text.toList ++ ')' :: rest := by
      rw [toList_text]
      exact skipSpaces_stops (by decide : Text.isSpace 'r' = false)
    have hend : skipSpaces (')' :: rest) = ')' :: rest :=
      skipSpaces_stops (by decide : Text.isSpace ')' = false)
    have hclose : AtClose (')' :: rest) := .inr (.inr rfl)
    rw [← hend]
    exact spaced_of_read (by rw [hend, hstart, register_text r hclose])
  have hbase : base ('(' :: (r.text.toList ++ ')' :: rest)) = some (r, rest) := by
    simp only [base, char, if_true, bind, Option.bind, hregister]
    rfl
  have hmemory : memory ((Text.signed v).toList ++ '(' :: r.text.toList ++ ')' :: rest) =
      some (.mem (.const (Int64.ofInt v)) r, rest) := by
    rw [List.append_assoc, List.cons_append]
    simp only [memory, hexpression, Option.getD_some, hbase, Option.map_some]
  rw [written, hmemory]

/-- A text that is read as an operand, wherever an operand may end. -/
structure Prints (t : List Char) (w : Written) : Prop where
  ne_nil : t ≠ []
  plain : ∀ c ∈ t, isPlain c = true
  read : ∀ rest, AtEnd rest → written (t ++ rest) = some (w, rest)

theorem plain_text (r : Reg) : ∀ c ∈ r.text.toList, isPlain c = true := by
  rw [toList_text]
  refine List.forall_mem_cons.mpr ⟨by decide, ?_⟩
  intro c hc
  simp [isPlain, isDigit_of_mem_decimal hc]

theorem plain_signed (v : Int) : ∀ c ∈ (Text.signed v).toList, isPlain c = true := by
  obtain ⟨c, cs, hcs, hc, hdigits⟩ := signed_cons v
  rw [hcs]
  refine List.forall_mem_cons.mpr ⟨?_, ?_⟩
  · rcases hc with hc | rfl
    · simp [isPlain, hc]
    · decide
  · intro d hd
    simp [isPlain, hdigits d hd]

theorem signed_ne_nil (v : Int) : (Text.signed v).toList ≠ [] := by
  obtain ⟨c, cs, hcs, -⟩ := signed_cons v
  rw [hcs]
  exact List.cons_ne_nil _ _

theorem prints_reg (r : Reg) : Prints r.text.toList (.reg r) where
  ne_nil := by
    rw [toList_text]
    exact List.cons_ne_nil _ _
  plain := plain_text r
  read _ hr := written_reg r hr

theorem prints_imm {v : Int} (hl : -(capacity 63 : Int) < v) (hu : v < capacity 63) :
    Prints (Text.signed v).toList (.expr (.const (Int64.ofInt v))) where
  ne_nil := signed_ne_nil v
  plain := plain_signed v
  read _ hr := written_imm hl hu hr

theorem prints_mem {v : Int} (hl : -(capacity 63 : Int) < v) (hu : v < capacity 63) (r : Reg) :
    Prints ((Text.signed v).toList ++ '(' :: r.text.toList ++ [')'])
      (.mem (.const (Int64.ofInt v)) r) where
  ne_nil := by simp
  plain c hc := by
    simp only [List.append_assoc, List.cons_append, List.mem_append, List.mem_cons,
      List.not_mem_nil, or_false] at hc
    rcases hc with hc | rfl | hc | rfl
    · exact plain_signed v c hc
    · decide
    · exact plain_text r c hc
    · decide
  read rest _ := by
    have h := written_mem hl hu r rest
    rw [List.append_assoc, List.cons_append] at h ⊢
    simpa using h

/-! ## Lists of operands -/

theorem Prints.skipSpaces {t : List Char} {w : Written} (h : Prints t w) (rest : List Char) :
    skipSpaces (t ++ rest) = t ++ rest := by
  refine skipSpaces_stops (stops_append h.ne_nil ?_ rest)
  intro c hc
  have := isPlain_bounds (h.plain c hc)
  exact isSpace_eq_false (by omega)

theorem Prints.spaced {t : List Char} {w : Written} (h : Prints t w) {rest : List Char}
    (hr : AtEnd rest) : spaced written (t ++ rest) = some (w, rest) := by
  have hend : Source.skipSpaces rest = rest := skipSpaces_stops (hr.atClose.stops (by decide))
  rw [← hend]
  exact spaced_of_read (by rw [hend, h.skipSpaces, h.read rest hr])

/-- Operands behind the first, each after a comma and a space. -/
def following (ts : List (List Char)) : List Char := ts.flatMap fun t => ',' :: ' ' :: t

theorem atEnd_following (ts : List (List Char)) : AtEnd (following ts) := by
  cases ts with
  | nil => trivial
  | cons t ts => exact rfl

theorem intercalate_eq (t : List Char) (ts : List (List Char)) :
    [',', ' '].intercalate (t :: ts) = t ++ following ts := by
  induction ts generalizing t with
  | nil => simp [following, List.intercalate_singleton]
  | cons u us ih => rw [List.intercalate_cons_cons, ih]; simp [following]

theorem moreItems_printed {ps : List (List Char × Written)} (h : ∀ p ∈ ps, Prints p.1 p.2)
    {fuel : Nat} (hfuel : ps.length ≤ fuel) :
    moreItems (spaced written) fuel (following (ps.map (·.1))) = (ps.map (·.2), []) := by
  induction ps generalizing fuel with
  | nil =>
    cases fuel with
    | zero => rfl
    | succ fuel => rfl
  | cons p ps ih =>
    obtain ⟨hp, hrest⟩ := List.forall_mem_cons.mp h
    cases fuel with
    | zero => cases hfuel
    | succ fuel =>
      have hcomma : spaced (char ',') (following (p.1 :: ps.map (·.1))) =
          some ((), p.1 ++ following (ps.map (·.1))) := by
        have hskip := hp.skipSpaces (following (ps.map (·.1)))
        have hread : char ',' (skipSpaces (following (p.1 :: ps.map (·.1)))) =
            some ((), ' ' :: (p.1 ++ following (ps.map (·.1)))) := rfl
        exact (spaced_of_read hread).trans (congrArg (fun rest => some ((), rest)) hskip)
      rw [List.map_cons, moreItems]
      simp only [hcomma, Option.bind_some, hp.spaced (atEnd_following _),
        ih hrest (Nat.le_of_succ_le_succ hfuel), List.map_cons]

theorem length_le_following (ts : List (List Char)) : ts.length ≤ (following ts).length := by
  induction ts with
  | nil => exact Nat.le_refl _
  | cons t ts ih =>
    simp only [following, List.flatMap_cons, List.length_append, List.length_cons] at ih ⊢
    omega

theorem items_printed {p : List Char × Written} {ps : List (List Char × Written)}
    (h : ∀ q ∈ p :: ps, Prints q.1 q.2) :
    items (spaced written) (p.1 ++ following (ps.map (·.1))) = some ((p :: ps).map (·.2), []) := by
  obtain ⟨hp, hrest⟩ := List.forall_mem_cons.mp h
  have hlen := length_le_following (ps.map (·.1))
  rw [List.length_map] at hlen
  rw [items, hp.spaced (atEnd_following _), Option.map_some]
  simp only [moreItems_printed hrest hlen, List.map_cons]

end Dlx.Source
