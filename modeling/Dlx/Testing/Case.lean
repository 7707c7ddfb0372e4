import Dlx.Text.Blank
import Dlx.Text.Line

/-!
# Test files

A test file starts with a command line `test …` and option lines. Then come cases: sources between
`source NAME {` and `}`, and a run of lines with `;` in front, whose text says what to expect. A run
of such lines without a source before it is a remark.
-/
namespace Dlx.Testing

structure Source where
  name : String
  text : String
  deriving DecidableEq

structure Case where
  command : String
  options : List String
  sources : List Source
  /-- The lines of directives without their semicolons. -/
  expected : String
  deriving DecidableEq

/-- The lines in front of the first source. -/
structure Header where
  command : String
  options : List String
  deriving DecidableEq

/-- What follows `word` and a space at the start of a line. -/
def after? (word : String) (line : List Char) : Option (List Char) :=
  let start := word.toList ++ [' ']
  if start.isPrefixOf line then some (line.drop start.length) else none

/-- The rest of a line that opens a source. -/
def opening? (line : List Char) : Option (List Char) := after? "source" (Text.trim line)

def isDirective (line : List Char) : Bool := (Text.trim line).head? = some ';'

/-- Takes a header line into account: a command, an option, or nothing. -/
def Header.add (h : Header) (line : List Char) : Header :=
  let t := Text.trim line
  if (after? "test" t).isSome then { h with command := String.ofList t }
  else if t.isEmpty || isDirective line then h
  else { h with options := h.options ++ [String.ofList t] }

/-- The header, and the lines from the first source on. -/
def readHeader (h : Header) : List (List Char) → Header × List (List Char)
  | [] => (h, [])
  | line :: rest =>
    if (opening? line).isSome then (h, line :: rest) else readHeader (h.add line) rest

/-- The name in the line that opens a source. -/
def sourceName (rest : List Char) : String :=
  String.ofList (Text.trim (rest.reverse.dropWhile (· = '{')).reverse)

/-- The text of a directive: without the semicolon and one space. -/
def directiveText (line : List Char) : List Char :=
  match Text.trim line with
  | ';' :: ' ' :: rest => rest
  | ';' :: rest => rest
  | t => t

/-- What the lines read last belong to. -/
inductive Mode where
  | between
  | inSource (name : String) (lines : List (List Char))
  | inDirectives (lines : List (List Char))
  deriving DecidableEq

/-- The sources of the case that is open, and the cases before it. -/
structure Progress where
  sources : List Source
  cases : List Case
  deriving DecidableEq

/-- How a line begins something. -/
def begin (line : List Char) : Mode :=
  match opening? line with
  | some rest => .inSource (sourceName rest) []
  | none => if isDirective line then .inDirectives [line] else .between

/-- Ends a run of directives, which closes a case if there are sources. -/
def closeCase (h : Header) (p : Progress) (lines : List (List Char)) : Progress :=
  if p.sources.isEmpty then p
  else
    let expected := String.ofList (Text.joinLines (lines.map directiveText))
    ⟨[], p.cases ++ [⟨h.command, h.options, p.sources, expected⟩]⟩

def step (h : Header) (p : Progress) (line : List Char) : Mode → Mode × Progress
  | .between => (begin line, p)
  | .inSource name lines =>
    if Text.trim line = ['}'] then
      let source := ⟨name, String.ofList (Text.joinLines lines)⟩
      (.between, { p with sources := p.sources ++ [source] })
    else (.inSource name (lines ++ [line]), p)
  | .inDirectives lines =>
    if isDirective line then (.inDirectives (lines ++ [line]), p)
    else (begin line, closeCase h p lines)

def casesFrom (h : Header) : Mode → Progress → List (List Char) → Progress
  | .inDirectives lines, p, [] => closeCase h p lines
  | _, p, [] => p
  | mode, p, line :: rest =>
    let (mode, p) := step h p line mode
    casesFrom h mode p rest

/-- The cases of a test file. -/
def readCases (text : String) : List Case :=
  let (h, rest) := readHeader ⟨"", []⟩ (Text.lines text.toList)
  (casesFrom h .between ⟨[], []⟩ rest).cases

end Dlx.Testing
