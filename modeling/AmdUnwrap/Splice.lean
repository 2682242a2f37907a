import AmdUnwrap.Syntax.Node
import AmdUnwrap.Text.Line

/-!
Copying parts of a text with replacements in them, moved to the left but for the lines that open
inside a literal.
-/

namespace AmdUnwrap

structure Edit where
  span : Span
  text : Text
  deriving DecidableEq, Repr

/-- A text with the literals whose lines must not move. -/
structure Source where
  text : Text
  verbatim : List Span

/-- Literals with lines of their own: templates, and strings that run over a line feed. -/
def isVerbatimLiteral (n : Node) : Bool :=
  match n.kind with
  | .template => true
  | .string raw => raw.contains '\n'
  | _ => false

def verbatimSpans (root : Node) : List Span :=
  (root.preorder.filter isVerbatimLiteral).map Node.span

namespace Source

def ofProgram (text : Text) (root : Node) : Source := ⟨text, verbatimSpans root⟩

def slice (s : Source) (span : Span) : Text := s.text.slice span

def inLiteral (s : Source) (offset : Nat) : Bool := s.verbatim.any (·.surrounds offset)

/-- Drops up to `dedent` spaces and tabs after each line feed, unless a literal is open there;
`budget` is what may still be dropped on the line that `offset` is in. -/
def shift (s : Source) (dedent : Nat) : (budget offset : Nat) → Text → Text
  | _, _, [] => []
  | budget, offset, c :: cs =>
    let next := offset + c.utf8Size
    if c = '\n' then c :: shift s dedent (if s.inLiteral next then 0 else dedent) next cs
    else if isIndent c && budget != 0 then shift s dedent (budget - 1) next cs
    else c :: shift s dedent 0 next cs

theorem shift_zero (s : Source) (offset : Nat) (text : Text) : s.shift 0 0 offset text = text := by
  induction text generalizing offset with
  | nil => rfl
  | cons c cs ih => simp [shift, ih]

/-- A part of the text moved left. Its first line stays, since what stands before it decides
where that line begins. -/
def copy (s : Source) (dedent : Nat) (span : Span) : Text :=
  s.shift dedent 0 span.start (s.slice span)

theorem copy_zero (s : Source) (span : Span) : s.copy 0 span = s.slice span := s.shift_zero ..

def splice (s : Source) (dedent stop : Nat) : (start : Nat) → List Edit → Text
  | start, [] => s.copy dedent ⟨start, stop⟩
  | start, edit :: edits =>
    s.copy dedent ⟨start, edit.span.start⟩ ++ edit.text ++ splice s dedent stop edit.span.stop edits

def render (s : Source) (span : Span) (edits : List Edit) (dedent : Nat) : Text :=
  s.splice dedent span.stop span.start (edits.filter (·.span.within span))

def lineIndent (s : Source) (offset : Nat) : Text := s.text.lineIndent offset

def lineEnding (s : Source) (offset : Nat) : LineEnding := s.text.lineEnding offset

def trim (s : Source) (region : Span) : Option Span := s.text.trim region

/-- The widths of the lines that decide how deep a block is indented: neither blank nor begun in
a literal. -/
def deciding (s : Source) : (offset : Nat) → List Text → List Nat
  | _, [] => []
  | offset, line :: rest =>
    let later := deciding s (offset + line.byteLength) rest
    if s.inLiteral offset || line.all isBlank then later else line.indentWidth :: later

/-- How deep the lines of a block are indented; `content` is the block's `region` trimmed. The
first line decides if it stands by itself, else the shallowest of the others. -/
def blockIndent (s : Source) (region content : Span) : Nat :=
  if '\n' ∈ s.slice ⟨region.start, content.start⟩ then (s.lineIndent content.start).length
  else
    match (s.slice content).lines with
    | [] => 0
    | first :: rest => (s.deciding (content.start + first.byteLength) rest).min?.getD 0

end Source
end AmdUnwrap
