/-!
# Lines

A text is cut at every line feed; one carriage return in front of a line feed belongs to the break.
A final line feed opens no further line, and a carriage return elsewhere is an ordinary character.

Results:
* `lines_cons_break`: a line without a line feed, then a line feed, gives that line and the lines of
  the rest.
-/
namespace Dlx.Text

/-- Drops the carriage return from a line read backwards. -/
def dropReturn : List Char → List Char
  | '\r' :: rest => rest
  | cs => cs

/-- The lines of a text, where `line` is the part of the current line already read, last character
first. -/
def linesFrom (line : List Char) : List Char → List (List Char)
  | [] => if line.isEmpty then [] else [line.reverse]
  | c :: rest =>
    if c = '\n' then (dropReturn line).reverse :: linesFrom [] rest else linesFrom (c :: line) rest

def lines (cs : List Char) : List (List Char) := linesFrom [] cs

/-- Lines with a separator between them. -/
def joinLines (ls : List (List Char)) : List Char := List.intercalate ['\n'] ls

theorem linesFrom_break (line l rest : List Char) (h : '\n' ∉ l) :
    linesFrom line (l ++ '\n' :: rest) =
      (dropReturn (l.reverse ++ line)).reverse :: lines rest := by
  induction l generalizing line with
  | nil => simp [linesFrom, lines]
  | cons c l ih =>
    simp only [List.mem_cons, not_or] at h
    simp [linesFrom, Ne.symm h.1, ih _ h.2]

theorem lines_cons_break (l rest : List Char) (h : '\n' ∉ l) (hr : '\r' ∉ l) :
    lines (l ++ '\n' :: rest) = l :: lines rest := by
  rw [lines, linesFrom_break [] l rest h, List.append_nil]
  have : dropReturn l.reverse = l.reverse := by
    unfold dropReturn
    split
    · next heq => exact absurd (List.mem_reverse.mp (heq ▸ List.mem_cons_self)) hr
    · rfl
  rw [this, List.reverse_reverse]

end Dlx.Text
