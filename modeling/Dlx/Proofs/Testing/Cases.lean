import Dlx.Proofs.Text
import Dlx.Testing.Case

/-!
# Test files are read back

A test file is written line by line: the command, the options, and then for every case its sources
between braces and its directives behind semicolons. Reading the file gives the cases that it was
written from. Between the braces stands any text without a line that closes the source: what looks
there like a directive, or like the opening of another source, is part of the text.

The reader goes from line to line in one of three modes. So each piece of the file, a source or a
run of directives, is described by what the reader has learnt once it is past its lines, whatever
lines follow. Only the options and a run of directives have no end of their own: they go up to the
line that opens a source, or to the end of the file (`NextOpens`).

Results:
* `readHeader_written`: the header has the command and the options.
* `casesFrom_block`, `casesFrom_case`: a source joins the open case, and its directives close it.
* `readCases_text`: the cases of a written file, with or without a line feed at its end.
-/
namespace Dlx.Testing

/-! ## Files as they are written -/

/-- A text on one line. -/
def IsLine (s : String) : Prop := '\n' ∉ s.toList ∧ '\r' ∉ s.toList

def IsTrimmed (s : String) : Prop := Text.trim s.toList = s.toList

/-- A line of the header that is neither a command nor a remark. -/
def IsOption (s : String) : Prop :=
  IsLine s ∧ IsTrimmed s ∧ s ≠ "" ∧ ∀ start ∈ [";", "test ", "source "], ¬ start.toList <+: s.toList

instance (s : String) : Decidable (IsLine s) := inferInstanceAs (Decidable (_ ∧ _))

instance (s : String) : Decidable (IsTrimmed s) := inferInstanceAs (Decidable (_ = _))

instance (s : String) : Decidable (IsOption s) := inferInstanceAs (Decidable (_ ∧ _ ∧ _ ∧ _))

/-- A source with its lines, of which none closes it. -/
structure SourceBlock where
  name : String
  lines : List String
  isLine_name : IsLine name := by decide
  isTrimmed_name : IsTrimmed name := by decide
  isLine_lines : ∀ l ∈ lines, IsLine l := by decide
  stays_open : ∀ l ∈ lines, Text.trim l.toList ≠ ['}'] := by decide

/-- A case with its directives, which may be empty lines or start with blanks. -/
structure CaseBlock where
  sources : List SourceBlock
  directives : List String
  sources_ne_nil : sources ≠ [] := by decide
  directives_ne_nil : directives ≠ [] := by decide
  isLine_directives : ∀ d ∈ directives, IsLine d := by decide
  trimEnd_directives : ∀ d ∈ directives, Text.trimEnd d.toList = d.toList := by decide

structure TestFile where
  command : String
  options : List String
  cases : List CaseBlock
  isLine_command : IsLine command := by decide
  isTrimmed_command : IsTrimmed command := by decide
  test_command : "test ".toList <+: command.toList := by decide
  isOption_options : ∀ o ∈ options, IsOption o := by decide

namespace SourceBlock

def opening (s : SourceBlock) : String := "source " ++ s.name ++ " \x7b"

def written (s : SourceBlock) : List String := s.opening :: s.lines ++ ["\x7d"]

def source (s : SourceBlock) : Source := ⟨s.name, "\n".intercalate s.lines⟩

end SourceBlock

def CaseBlock.written (c : CaseBlock) : List String :=
  c.sources.flatMap SourceBlock.written ++ c.directives.map ("; " ++ ·)

/-- The case in a file with a given header. -/
def CaseBlock.case (h : Header) (c : CaseBlock) : Case :=
  ⟨h.command, h.options, c.sources.map SourceBlock.source, "\n".intercalate c.directives⟩

namespace TestFile

def header (f : TestFile) : Header := ⟨f.command, f.options⟩

def written (f : TestFile) : List String :=
  f.command :: f.options ++ f.cases.flatMap CaseBlock.written

def text (f : TestFile) : String := "\n".intercalate f.written

end TestFile

/-! ## Single lines -/

theorem isSome_after? {word : String} {line : List Char} :
    (after? word line).isSome ↔ word.toList ++ [' '] <+: line := by
  rw [after?, ← List.isPrefixOf_iff_prefix]
  split <;> simp_all

theorem isDirective_iff {line : List Char} :
    isDirective line = true ↔ [';'] <+: Text.trim line := by
  rw [isDirective, decide_eq_true_eq]
  cases Text.trim line <;> simp [eq_comm]

/-- No line opens a source and is a directive. -/
theorem opening?_eq_none {line : List Char} (h : isDirective line = true) :
    opening? line = none := by
  rw [← Option.not_isSome_iff_eq_none, opening?, isSome_after?]
  obtain ⟨rest, hrest⟩ := isDirective_iff.mp h
  rw [← hrest]
  simp

theorem trim_opening (s : SourceBlock) : Text.trim s.opening.toList = s.opening.toList := by
  have hlast : Text.trimEnd ['{'] = ['{'] := by decide
  have hsplit : s.opening.toList = 's' :: ("ource ".toList ++ s.name.toList ++ [' ']) ++ ['{'] := by
    simp [SourceBlock.opening]
  rw [hsplit, List.cons_append, Text.trim_cons (by decide), ← List.cons_append,
    Text.trimEnd_append (by simp [hlast]), hlast]

theorem opening?_opening (s : SourceBlock) :
    opening? s.opening.toList = some (s.name.toList ++ [' ', '{']) := by
  rw [opening?, trim_opening, SourceBlock.opening, after?]
  simp

/-- The blank in front of the brace goes with it. -/
theorem sourceName_opening (s : SourceBlock) :
    sourceName (s.name.toList ++ [' ', '{']) = s.name := by
  have hdrop : ((s.name.toList ++ [' ', '{']).reverse.dropWhile (· = '{')).reverse =
      s.name.toList ++ [' '] := by simp
  rw [sourceName, hdrop, Text.trim_concat (by decide), s.isTrimmed_name, String.ofList_toList]

/-- A directive loses its blank if nothing else is on the line. -/
theorem trim_directive {d : List Char} (h : Text.trimEnd d = d) :
    d = [] ∧ Text.trim (';' :: ' ' :: d) = [';'] ∨
      Text.trim (';' :: ' ' :: d) = ';' :: ' ' :: d := by
  cases d with
  | nil => exact .inl (by decide)
  | cons c cs =>
    have hend := Text.trimEnd_append (t := c :: cs) (by simp [h]) [';', ' ']
    rw [h] at hend
    exact .inr ((Text.trim_cons (by decide) _).trans hend)

theorem toList_directive (d : String) : ("; " ++ d).toList = ';' :: ' ' :: d.toList := by simp

theorem isDirective_written {d : String} (h : Text.trimEnd d.toList = d.toList) :
    isDirective ("; " ++ d).toList = true := by
  rw [isDirective_iff, toList_directive]
  rcases trim_directive h with ⟨-, htrim⟩ | htrim <;> simp [htrim]

theorem directiveText_written {d : String} (h : Text.trimEnd d.toList = d.toList) :
    directiveText ("; " ++ d).toList = d.toList := by
  rw [toList_directive, directiveText]
  rcases trim_directive h with ⟨hd, htrim⟩ | htrim
  · rw [htrim, hd]
    rfl
  · rw [htrim]
    rfl

/-! ## The header -/

/-- The lines go on with a source, if they go on. -/
def NextOpens : List (List Char) → Prop
  | [] => True
  | line :: _ => (opening? line).isSome

theorem nextOpens_cases (cs : List CaseBlock) :
    NextOpens ((cs.flatMap CaseBlock.written).map String.toList) := by
  cases cs with
  | nil => trivial
  | cons c cs =>
    obtain ⟨s, ss, hs⟩ := List.exists_cons_of_ne_nil c.sources_ne_nil
    simp [CaseBlock.written, hs, SourceBlock.written, NextOpens, opening?_opening]

theorem Header.add_option (h : Header) {o : String} (ho : IsOption o) :
    h.add o.toList = { h with options := h.options ++ [o] } := by
  obtain ⟨-, htrim, hne, hstart⟩ := ho
  have hcommand : ¬ (after? "test" o.toList).isSome :=
    mt isSome_after?.mp (hstart "test " (by simp))
  have hremark : isDirective o.toList = false := by
    rw [Bool.eq_false_iff, ne_eq, isDirective_iff, htrim]
    exact hstart ";" (by simp)
  rw [Header.add, htrim, if_neg hcommand, hremark, if_neg (by simpa using hne),
    String.ofList_toList]

theorem readHeader_options (h : Header) {options : List String} (ho : ∀ o ∈ options, IsOption o)
    {rest : List (List Char)} (hrest : NextOpens rest) :
    readHeader h (options.map String.toList ++ rest) =
      ({ h with options := h.options ++ options }, rest) := by
  induction options generalizing h with
  | nil =>
    rw [List.map_nil, List.nil_append, List.append_nil]
    cases rest with
    | nil => rfl
    | cons line rest => exact if_pos hrest
  | cons o options ih =>
    obtain ⟨hfirst, hothers⟩ := List.forall_mem_cons.mp ho
    have hclosed : ¬ (opening? o.toList).isSome := by
      rw [opening?, hfirst.2.1, isSome_after?]
      exact hfirst.2.2.2 "source " (by simp)
    rw [List.map_cons, List.cons_append, readHeader, if_neg hclosed, h.add_option hfirst,
      ih _ hothers, List.append_assoc, List.singleton_append]

theorem readHeader_written (f : TestFile) :
    readHeader ⟨"", []⟩ (f.written.map String.toList) =
      (f.header, (f.cases.flatMap CaseBlock.written).map String.toList) := by
  have htest : (after? "test" f.command.toList).isSome := isSome_after?.mpr f.test_command
  have hclosed : ¬ (opening? f.command.toList).isSome := by
    rw [opening?, f.isTrimmed_command, isSome_after?]
    obtain ⟨rest, hrest⟩ := f.test_command
    rw [← hrest]
    simp
  have hadd : Header.add ⟨"", []⟩ f.command.toList = ⟨f.command, []⟩ := by
    rw [Header.add, f.isTrimmed_command, if_pos htest, String.ofList_toList]
  rw [TestFile.written, List.cons_append, List.map_cons, readHeader, if_neg hclosed, hadd,
    List.map_append, readHeader_options _ f.isOption_options (nextOpens_cases _)]
  rfl

/-! ## The cases -/

theorem ofList_joinLines (ls : List String) :
    String.ofList (Text.joinLines (ls.map String.toList)) = "\n".intercalate ls := by
  rw [Text.joinLines, ← String.ofList_toList (s := "\n".intercalate ls), String.toList_intercalate]
  rfl

section
variable (h : Header)

theorem casesFrom_cons (mode : Mode) (p : Progress) (line : List Char) (rest : List (List Char)) :
    casesFrom h mode p (line :: rest) =
      casesFrom h (step h p line mode).1 (step h p line mode).2 rest := by
  cases mode <;> rfl

/-- The text of a source goes up to the closing brace. -/
theorem casesFrom_lines (p : Progress) (name : String) (before : List (List Char))
    {lines : List String} (hopen : ∀ l ∈ lines, Text.trim l.toList ≠ ['}'])
    (rest : List (List Char)) :
    casesFrom h (.inSource name before) p (lines.map String.toList ++ ['}'] :: rest) =
      casesFrom h .between { p with sources := p.sources ++
        [⟨name, String.ofList (Text.joinLines (before ++ lines.map String.toList))⟩] } rest := by
  induction lines generalizing before with
  | nil =>
    have hbrace : Text.trim ['}'] = ['}'] := by decide
    rw [List.map_nil, List.nil_append, casesFrom_cons, step, if_pos hbrace, List.append_nil]
  | cons l lines ih =>
    obtain ⟨hl, hlines⟩ := List.forall_mem_cons.mp hopen
    rw [List.map_cons, List.cons_append, casesFrom_cons, step, if_neg hl, ih _ hlines,
      List.append_assoc, List.singleton_append]

theorem casesFrom_block (p : Progress) (s : SourceBlock) (rest : List (List Char)) :
    casesFrom h .between p (s.written.map String.toList ++ rest) =
      casesFrom h .between { p with sources := p.sources ++ [s.source] } rest := by
  have hbegin : begin s.opening.toList = .inSource s.name [] := by
    rw [begin, opening?_opening]
    exact congrArg (Mode.inSource · []) (sourceName_opening s)
  have hlines := casesFrom_lines h p s.name [] s.stays_open rest
  rw [List.nil_append, ofList_joinLines] at hlines
  rw [SourceBlock.written, List.cons_append, List.map_cons, List.cons_append, casesFrom_cons, step,
    hbegin, List.map_append, List.append_assoc]
  exact hlines

theorem casesFrom_blocks (p : Progress) (ss : List SourceBlock) (rest : List (List Char)) :
    casesFrom h .between p ((ss.flatMap SourceBlock.written).map String.toList ++ rest) =
      casesFrom h .between { p with sources := p.sources ++ ss.map SourceBlock.source } rest := by
  induction ss generalizing p with
  | nil => simp
  | cons s ss ih =>
    rw [List.flatMap_cons, List.map_append, List.append_assoc, casesFrom_block, ih]
    simp

/-- A run of directives goes up to the next source and closes the case. -/
theorem casesFrom_directives (p : Progress) (before : List (List Char))
    {lines rest : List (List Char)} (hlines : ∀ l ∈ lines, isDirective l = true)
    (hrest : NextOpens rest) :
    casesFrom h (.inDirectives before) p (lines ++ rest) =
      casesFrom h .between (closeCase h p (before ++ lines)) rest := by
  induction lines generalizing before with
  | nil =>
    rw [List.nil_append, List.append_nil]
    cases rest with
    | nil => rfl
    | cons line rest =>
      have hline : isDirective line ≠ true := by
        intro hdirective
        rw [NextOpens, opening?_eq_none hdirective] at hrest
        cases hrest
      rw [casesFrom_cons, casesFrom_cons, step, step, if_neg hline]
  | cons l lines ih =>
    obtain ⟨hl, hlines⟩ := List.forall_mem_cons.mp hlines
    rw [List.cons_append, casesFrom_cons, step, if_pos hl, ih _ hlines, List.append_assoc,
      List.singleton_append]

theorem closeCase_written (c : CaseBlock) (done : List Case) :
    closeCase h ⟨c.sources.map SourceBlock.source, done⟩
        ((c.directives.map ("; " ++ ·)).map String.toList) = ⟨[], done ++ [c.case h]⟩ := by
  have hne : (c.sources.map SourceBlock.source).isEmpty = false := by simp [c.sources_ne_nil]
  have htexts : ((c.directives.map ("; " ++ ·)).map String.toList).map directiveText =
      c.directives.map String.toList := by
    rw [List.map_map, List.map_map]
    exact List.map_congr_left fun d hd => directiveText_written (c.trimEnd_directives d hd)
  rw [closeCase, htexts, ofList_joinLines, hne]
  rfl

theorem casesFrom_case (done : List Case) (c : CaseBlock) {rest : List (List Char)}
    (hrest : NextOpens rest) :
    casesFrom h .between ⟨[], done⟩ (c.written.map String.toList ++ rest) =
      casesFrom h .between ⟨[], done ++ [c.case h]⟩ rest := by
  have hdirectives : ∀ l ∈ (c.directives.map ("; " ++ ·)).map String.toList,
      isDirective l = true := by
    simp only [List.map_map, List.forall_mem_map]
    exact fun d hd => isDirective_written (c.trimEnd_directives d hd)
  rw [CaseBlock.written, List.map_append, List.append_assoc, casesFrom_blocks, List.nil_append,
    ← closeCase_written]
  -- the first directive starts the run
  obtain ⟨d, ds, hds⟩ := List.exists_cons_of_ne_nil c.directives_ne_nil
  rw [hds, List.map_cons, List.map_cons] at hdirectives ⊢
  obtain ⟨hd, hds⟩ := List.forall_mem_cons.mp hdirectives
  have hbegin : begin ("; " ++ d).toList = .inDirectives [("; " ++ d).toList] := by
    rw [begin, opening?_eq_none hd]
    exact if_pos hd
  rw [List.cons_append, casesFrom_cons, step, hbegin, casesFrom_directives h _ _ hds hrest]
  rfl

theorem casesFrom_cases (done : List Case) (cs : List CaseBlock) :
    casesFrom h .between ⟨[], done⟩ ((cs.flatMap CaseBlock.written).map String.toList) =
      ⟨[], done ++ cs.map (CaseBlock.case h)⟩ := by
  induction cs generalizing done with
  | nil => simp [casesFrom]
  | cons c cs ih =>
    rw [List.flatMap_cons, List.map_append, casesFrom_case h done c (nextOpens_cases cs), ih,
      List.map_cons, List.append_assoc, List.singleton_append]

end

/-! ## The file -/

theorem SourceBlock.isLine_written (s : SourceBlock) : ∀ l ∈ s.written, IsLine l := by
  intro l hl
  simp only [written, List.cons_append, List.mem_cons, List.mem_append, List.not_mem_nil,
    or_false] at hl
  rcases hl with rfl | hl | rfl
  · have := s.isLine_name
    simp_all [IsLine, opening]
  · exact s.isLine_lines l hl
  · decide

theorem CaseBlock.isLine_written (c : CaseBlock) : ∀ l ∈ c.written, IsLine l := by
  intro l hl
  rcases List.mem_append.mp hl with hl | hl
  · obtain ⟨s, -, hs⟩ := List.mem_flatMap.mp hl
    exact s.isLine_written l hs
  · obtain ⟨d, hd, rfl⟩ := List.mem_map.mp hl
    have := c.isLine_directives d hd
    simp_all [IsLine]

theorem TestFile.isLine_written (f : TestFile) : ∀ l ∈ f.written, IsLine l := by
  intro l hl
  rcases List.mem_append.mp hl with hl | hl
  · rcases List.mem_cons.mp hl with rfl | hl
    · exact f.isLine_command
    · exact (f.isOption_options l hl).1
  · obtain ⟨c, -, hc⟩ := List.mem_flatMap.mp hl
    exact c.isLine_written l hc

theorem getLast?_append_ne {α : Type} {x : α} {as bs : List α} (ha : as.getLast? ≠ some x)
    (hb : bs.getLast? ≠ some x) : (as ++ bs).getLast? ≠ some x := by
  rw [List.getLast?_append]
  cases hlast : bs.getLast? with
  | none => exact ha
  | some y =>
    rw [hlast] at hb
    exact hb

theorem getLast?_flatMap_ne {α β : Type} {x : β} {g : α → List β} {as : List α}
    (h : ∀ a ∈ as, (g a).getLast? ≠ some x) : (as.flatMap g).getLast? ≠ some x := by
  induction as with
  | nil => simp
  | cons a as ih =>
    obtain ⟨ha, has⟩ := List.forall_mem_cons.mp h
    exact getLast?_append_ne ha (ih has)

/-- Each piece of a file ends with a line that is not empty, and so does the file. -/
theorem TestFile.getLast?_written (f : TestFile) : f.written.getLast? ≠ some "" := by
  have hnonempty {ls : List String} (h : "" ∉ ls) : ls.getLast? ≠ some "" :=
    fun hlast => h (List.mem_of_getLast? hlast)
  refine getLast?_append_ne (hnonempty ?_) (getLast?_flatMap_ne fun c _ => ?_)
  · rw [List.mem_cons, not_or]
    refine ⟨?_, fun ho => (f.isOption_options _ ho).2.2.1 rfl⟩
    intro hcommand
    have hempty := f.test_command
    rw [← hcommand] at hempty
    simp at hempty
  · refine getLast?_append_ne (getLast?_flatMap_ne fun s _ => ?_) (hnonempty ?_)
    · rw [SourceBlock.written, List.getLast?_concat]
      decide
    · simp [← String.toList_inj]

theorem readCases_of_lines (f : TestFile) {text : String}
    (h : Text.lines text.toList = f.written.map String.toList) :
    readCases text = f.cases.map (CaseBlock.case f.header) := by
  rw [readCases, h, readHeader_written]
  exact congrArg Progress.cases (casesFrom_cases f.header [] f.cases)

/-- A written file has the cases that it was written from, whether or not its last line is ended. -/
theorem readCases_text (f : TestFile) :
    readCases f.text = f.cases.map (CaseBlock.case f.header) ∧
      readCases (f.text ++ "\n") = f.cases.map (CaseBlock.case f.header) := by
  have hlines : ∀ l ∈ f.written.map String.toList, '\n' ∉ l ∧ '\r' ∉ l :=
    List.forall_mem_map.mpr f.isLine_written
  have htext : f.text.toList = Text.joinLines (f.written.map String.toList) :=
    String.toList_intercalate
  refine ⟨readCases_of_lines f ?_, readCases_of_lines f ?_⟩
  · rw [htext, Text.lines_joinLines hlines]
    rw [List.getLast?_map, ne_eq, Option.map_eq_some_iff]
    rintro ⟨l, hlast, hempty⟩
    rw [String.toList_eq_nil_iff] at hempty
    exact f.getLast?_written (hempty ▸ hlast)
  · rw [String.toList_append, htext]
    exact Text.lines_joinLines_break hlines (List.cons_ne_nil _ _)

/-- A file whose sources hold lines that look like directives and like sources. -/
def deceptiveFile : TestFile where
  command := "test link"
  options := ["base 0x1000", "source"]
  cases :=
    [{ sources := [{ name := "a \x7b", lines := ["; check: jal", "", "source b \x7b", " \x7d x"] },
        { name := "", lines := [] }]
       directives := ["check: jal", "", "  nextln: jr"] },
      { sources := [{ name := "c", lines := [""] }], directives := [";"] }]

theorem readCases_text_deceptiveFile :
    readCases deceptiveFile.text =
      [⟨"test link", ["base 0x1000", "source"],
        [⟨"a \x7b", "; check: jal\n\nsource b \x7b\n \x7d x"⟩, ⟨"", ""⟩],
        "check: jal\n\n  nextln: jr"⟩,
      ⟨"test link", ["base 0x1000", "source"], [⟨"c", ""⟩], ";"⟩] :=
  (readCases_text deceptiveFile).1

end Dlx.Testing
