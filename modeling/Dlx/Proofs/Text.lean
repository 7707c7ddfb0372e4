import Dlx.Bits
import Dlx.Text.Blank
import Dlx.Text.Line
import Dlx.Text.Numeral
import Mathlib.Data.List.Basic

/-!
# Reading printed numerals and lines

What is printed can be read back: digits give the number they were made from, in each base and with
zeros in front, and lines that were joined are found again. Trimming removes blanks at the ends and
nothing else.

Results:
* `readNat?_toDigits`, `readNat?_hex`: digits are read as the number they spell.
* `lines_joinLines`, `lines_joinLines_break`: joined lines are cut where they were joined.
* `trimEnd_append`, `trim_concat`: what is in front of the last visible character stays, and a blank
  behind it goes.
-/
namespace Dlx.Text

/-! ## Digits -/

theorem digitValue?_digitChar {base d : Nat} (hbase : base ≤ 16) (hd : d < base) :
    digitValue? base d.digitChar = some d := by
  have hall : ∀ b ≤ 16, ∀ d < b, digitValue? b d.digitChar = some d := by decide
  exact hall base hbase d hd

theorem mem_toDigits {base n : Nat} (hbase : 1 < base) {c : Char} (h : c ∈ Nat.toDigits base n) :
    ∃ d < base, c = d.digitChar := by
  induction n using Nat.strongRecOn with
  | ind n ih =>
    by_cases hn : n < base
    · rw [Nat.toDigits_of_lt_base hn, List.mem_singleton] at h
      exact ⟨n, hn, h⟩
    · have hle := Nat.le_of_not_lt hn
      rw [Nat.toDigits_of_base_le hbase hle, List.mem_append, List.mem_singleton] at h
      rcases h with h | h
      · exact ih (n / base) (Nat.div_lt_self (by omega) hbase) h
      · exact ⟨n % base, Nat.mod_lt _ (by omega), h⟩

theorem readDigits?_snoc (base value : Nat) (cs : List Char) (c : Char) :
    readDigits? base value (cs ++ [c]) =
      (readDigits? base value cs).bind fun n => (digitValue? base c).map (base * n + ·) := by
  induction cs generalizing value with
  | nil =>
    rw [List.nil_append, readDigits?, readDigits?]
    cases digitValue? base c <;> rfl
  | cons d cs ih =>
    rw [List.cons_append, readDigits?, readDigits?]
    cases digitValue? base d with
    | none => rfl
    | some v => exact ih _

theorem readDigits?_toDigits {base : Nat} (hone : 1 < base) (hbase : base ≤ 16) (n : Nat) :
    readDigits? base 0 (Nat.toDigits base n) = some n := by
  induction n using Nat.strongRecOn with
  | ind n ih =>
    by_cases hn : n < base
    · rw [Nat.toDigits_of_lt_base hn, readDigits?, digitValue?_digitChar hbase hn]
      simp [readDigits?]
    · have hle := Nat.le_of_not_lt hn
      have hdigit := digitValue?_digitChar hbase (Nat.mod_lt n (Nat.lt_trans Nat.one_pos hone))
      rw [Nat.toDigits_of_base_le hone hle, readDigits?_snoc,
        ih (n / base) (Nat.div_lt_self (by omega) hone), hdigit]
      exact congrArg some (Nat.div_add_mod n base)

theorem readDigits?_zeros {base : Nat} (hbase : 0 < base) (count : Nat) (cs : List Char) :
    readDigits? base 0 (List.replicate count '0' ++ cs) = readDigits? base 0 cs := by
  have hzero : digitValue? base '0' = some 0 := by simp [digitValue?, hbase]
  induction count with
  | zero => rfl
  | succ count ih =>
    rw [List.replicate_succ, List.cons_append, readDigits?, hzero]
    exact ih

theorem readNat?_of_ne_nil {base : Nat} {cs : List Char} (h : cs ≠ []) :
    readNat? base cs = readDigits? base 0 cs := by
  cases cs with
  | nil => exact absurd rfl h
  | cons c cs => rfl

theorem readNat?_toDigits {base : Nat} (hone : 1 < base) (hbase : base ≤ 16) (n : Nat) :
    readNat? base (Nat.toDigits base n) = some n := by
  rw [readNat?_of_ne_nil Nat.toDigits_ne_nil, readDigits?_toDigits hone hbase]

theorem toList_hex (width n : Nat) : (hex width n).toList =
    List.replicate (width - (Nat.toDigits 16 n).length) '0' ++ Nat.toDigits 16 n := by
  rw [hex, String.toList_ofList]
  rfl

theorem readNat?_hex (width n : Nat) : readNat? 16 (hex width n).toList = some n := by
  have hne : (hex width n).toList ≠ [] := by
    rw [toList_hex]
    exact List.append_ne_nil_of_right_ne_nil _ Nat.toDigits_ne_nil
  rw [readNat?_of_ne_nil hne, toList_hex, readDigits?_zeros (by decide),
    readDigits?_toDigits (by decide) (by decide)]

/-- The characters of a hexadecimal numeral. -/
theorem mem_hex {width n : Nat} {c : Char} (h : c ∈ (hex width n).toList) :
    ∃ d < 16, c = d.digitChar := by
  rw [toList_hex, List.mem_append] at h
  rcases h with h | h
  · exact ⟨0, by decide, (List.mem_replicate.mp h).2⟩
  · exact mem_toDigits (by decide) h

/-- A numeral has the least width if the number needs no more digits. -/
theorem length_hex {width n : Nat} (hwidth : 0 < width) (h : n < capacity (4 * width)) :
    (hex width n).toList.length = width := by
  have hlen : (Nat.toDigits 16 n).length ≤ width := by
    rw [Nat.length_toDigits_le_iff (by decide) hwidth]
    exact Nat.lt_of_lt_of_eq h (Nat.pow_mul 2 4 width)
  rw [toList_hex, List.length_append, List.length_replicate]
  omega

/-! ## Lines -/

theorem linesFrom_of_notMem {line l : List Char} (h : '\n' ∉ l) (hne : l ≠ []) :
    linesFrom line l = [line.reverse ++ l] := by
  induction l generalizing line with
  | nil => exact absurd rfl hne
  | cons c l ih =>
    rw [List.mem_cons, not_or] at h
    rw [linesFrom, if_neg (Ne.symm h.1)]
    cases l with
    | nil => simp [linesFrom]
    | cons d l =>
      rw [ih h.2 (List.cons_ne_nil _ _)]
      simp

theorem joinLines_cons (l : List Char) {ls : List (List Char)} (h : ls ≠ []) :
    joinLines (l :: ls) = l ++ '\n' :: joinLines ls := by
  obtain ⟨l', ls, rfl⟩ := List.exists_cons_of_ne_nil h
  simp [joinLines, List.intercalate_cons_cons]

/-- Every line in front of the last one is cut off where it was joined. -/
theorem lines_joinLines_append {ls : List (List Char)} (h : ∀ l ∈ ls, '\n' ∉ l ∧ '\r' ∉ l)
    (last rest : List Char) :
    lines (joinLines (ls ++ [last]) ++ rest) = ls ++ lines (last ++ rest) := by
  induction ls with
  | nil => rw [List.nil_append, joinLines, List.intercalate_singleton, List.nil_append]
  | cons l ls ih =>
    obtain ⟨⟨hbreak, hreturn⟩, hrest⟩ := List.forall_mem_cons.mp h
    rw [List.cons_append, joinLines_cons l (by simp), List.append_assoc, List.cons_append,
      lines_cons_break _ _ hbreak hreturn, ih hrest, List.cons_append]

/-- Lines may be empty, apart from the last one, which no line feed follows. -/
theorem lines_joinLines {ls : List (List Char)} (h : ∀ l ∈ ls, '\n' ∉ l ∧ '\r' ∉ l)
    (hlast : ls.getLast? ≠ some []) : lines (joinLines ls) = ls := by
  rcases List.eq_nil_or_concat ls with rfl | ⟨init, last, rfl⟩
  · rfl
  · simp only [List.concat_eq_append, List.getLast?_append, List.getLast?_singleton,
      Option.some_or, ne_eq, Option.some.injEq] at hlast
    have hinit : ∀ l ∈ init, '\n' ∉ l ∧ '\r' ∉ l := fun l hl => h l (by simp [hl])
    have hcut := lines_joinLines_append hinit last []
    rw [List.append_nil, List.append_nil] at hcut
    rw [List.concat_eq_append, hcut, lines, linesFrom_of_notMem (h last (by simp)).1 hlast]
    rfl

/-- A line feed behind the last line changes nothing. -/
theorem lines_joinLines_break {ls : List (List Char)} (h : ∀ l ∈ ls, '\n' ∉ l ∧ '\r' ∉ l)
    (hne : ls ≠ []) : lines (joinLines ls ++ ['\n']) = ls := by
  obtain ⟨init, last, rfl⟩ := (List.eq_nil_or_concat ls).resolve_left hne
  obtain ⟨hbreak, hreturn⟩ := h last (by simp)
  rw [List.concat_eq_append, lines_joinLines_append (fun l hl => h l (by simp [hl])),
    lines_cons_break _ _ hbreak hreturn]
  rfl

/-! ## Trimming -/

theorem trim_cons {c : Char} (hc : isBlank c = false) (t : List Char) :
    trim (c :: t) = trimEnd (c :: t) := by
  rw [trim, trimStart, List.dropWhile_cons_of_neg (by simp [hc])]

/-- Trimming stops at the last character that is not blank. -/
theorem trimEnd_append {t : List Char} (h : trimEnd t ≠ []) (s : List Char) :
    trimEnd (s ++ t) = s ++ trimEnd t := by
  have hne : t.reverse.dropWhile isBlank ≠ [] := fun hnil => h (by rw [trimEnd, hnil]; rfl)
  rw [trimEnd, List.reverse_append, List.dropWhile_append, if_neg (by simpa using hne),
    List.reverse_append, List.reverse_reverse]
  rfl

theorem trim_concat {c : Char} (hc : isBlank c = true) (t : List Char) :
    trim (t ++ [c]) = trim t := by
  have hend (u : List Char) : trimEnd (u ++ [c]) = trimEnd u := by
    rw [trimEnd, List.reverse_append, List.reverse_singleton, List.singleton_append,
      List.dropWhile_cons_of_pos hc]
    rfl
  rw [trim, trim, trimStart, List.dropWhile_append]
  split
  · next hnil => rw [trimStart, List.isEmpty_iff.mp hnil, List.dropWhile_cons_of_pos hc]; rfl
  · exact hend _

end Dlx.Text
