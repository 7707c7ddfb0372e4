import Dlx.Text.Blank
import Dlx.Text.Line
import Dlx.Text.WordChar

/-!
# Check directives

Directives say what a text contains and in which order. `check` looks for a pattern after what has
been matched so far, `sameln` on the same line, `nextln` on the next, `unordered` anywhere after the
last `check`; `not` forbids a pattern between the matches around it. A pattern is literal; where it
begins or ends with a letter or digit, the match must begin or end a word.
-/
namespace Dlx.Testing

/-! ## Patterns -/

abbrev Pattern := List Char

def isWordAt (c : Option Char) : Bool := c.any Text.isWordChar

/-- Whether a word begins or ends between two neighbours. -/
def isBoundary (before after : Option Char) : Bool := isWordAt before != isWordAt after

/-- Whether a pattern stands at the front of `cs`, after the character `before`. -/
def matchesAt (p : Pattern) (before : Option Char) (cs : List Char) : Bool :=
  p.isPrefixOf cs &&
    (!p.head?.any Text.isAlphanumeric || isBoundary before p.head?) &&
    (!p.getLast?.any Text.isAlphanumeric || isBoundary p.getLast? (cs.drop p.length).head?)

/-- The first place of a pattern in `cs`, counted from `position`. -/
def findFrom (p : Pattern) (before : Option Char) (position : Nat) : List Char → Option Nat
  | [] => if matchesAt p before [] then some position else none
  | c :: rest =>
    if matchesAt p before (c :: rest) then some position
    else findFrom p (some c) (position + 1) rest

/-- The first place of a pattern between two positions of a text. -/
def findIn (text : List Char) (p : Pattern) (start stop : Nat) : Option Nat :=
  findFrom p none start ((text.drop start).take (stop - start))

/-! ## Directives -/

inductive CheckKind where
  | check
  | sameLine
  | nextLine
  | unordered
  | absent
  /-- Names a pattern for later use; nothing is matched. -/
  | named
  deriving DecidableEq

structure Directive where
  kind : CheckKind
  pattern : Pattern
  deriving DecidableEq

def keywords : List (String × CheckKind) :=
  [("check", .check), ("sameln", .sameLine), ("nextln", .nextLine), ("unordered", .unordered),
   ("not", .absent), ("regex", .named)]

/-- A keyword at the front of `cs`, with a colon and at least one blank after it. -/
def keywordAt? (cs : List Char) : Option Directive :=
  keywords.findSome? fun (word, kind) =>
    let start := word.toList ++ [':']
    if start.isPrefixOf cs then
      match cs.drop start.length with
      | c :: rest => if Text.isBlank c then some ⟨kind, Text.trim rest⟩ else none
      | [] => none
    else none

/-- The first directive in a line, where a word begins. -/
def directiveFrom? (before : Option Char) : List Char → Option Directive
  | [] => none
  | c :: rest =>
    match if isWordAt before then none else keywordAt? (c :: rest) with
    | some d => some d
    | none => directiveFrom? (some c) rest

/-- The directive of a line; other lines are remarks. -/
def directive? (line : List Char) : Option Directive := directiveFrom? none (Text.trim line)

def directives (expected : String) : List Directive :=
  (Text.lines expected.toList).filterMap directive?

/-! ## Matching -/

/-- The start of the line after the one that holds a position. -/
def nextLineStart (text : List Char) (position : Nat) : Nat :=
  let rest := text.drop position
  position + (rest.takeWhile (· ≠ '\n')).length + if rest.contains '\n' then 1 else 0

structure CheckState where
  /-- End of the last match in order. -/
  last : Nat
  /-- End of the furthest match. -/
  furthest : Nat
  /-- Patterns that must not be matched from a position on. -/
  pending : List (Pattern × Nat)
  deriving DecidableEq

/-- Whether no pending pattern stands before `stop`. -/
def noneBefore (text : List Char) (pending : List (Pattern × Nat)) (stop : Nat) : Bool :=
  pending.all fun (p, start) => (findIn text p start stop).isNone

/-- A match in order, between two positions. -/
def matchBetween (text : List Char) (s : CheckState) (p : Pattern) (start stop : Nat) :
    Option CheckState :=
  match findIn text p start stop with
  | none => none
  | some place =>
    let reached := place + p.length
    if noneBefore text s.pending place then some ⟨reached, reached, []⟩ else none

/-- What follows a directive; nothing, if it fails. -/
def checkStep (text : List Char) (s : CheckState) (d : Directive) : Option CheckState :=
  let line := nextLineStart text s.furthest
  match d.kind with
  | .check => matchBetween text s d.pattern s.furthest text.length
  | .sameLine => matchBetween text s d.pattern s.furthest line
  | .nextLine => matchBetween text s d.pattern line (nextLineStart text line)
  | .unordered =>
    (findIn text d.pattern s.last text.length).map fun place =>
      { s with furthest := max s.furthest (place + d.pattern.length) }
  | .absent => some { s with pending := s.pending ++ [(d.pattern, s.last)] }
  | .named => some s

def checkAll (text : List Char) : List Directive → CheckState → Bool
  | [], s => noneBefore text s.pending text.length
  | d :: rest, s =>
    match checkStep text s d with
    | some s => checkAll text rest s
    | none => false

/-- Whether a text is as expected. -/
def passes (actual expected : String) : Bool :=
  checkAll actual.toList (directives expected) ⟨0, 0, []⟩

end Dlx.Testing
