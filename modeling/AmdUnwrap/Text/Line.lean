import AmdUnwrap.Text.Basic

/-!
Lines, their indentation and their terminators. A line ends at a line feed only, and only
spaces and tabs indent it.
-/

namespace AmdUnwrap

/-- The ranges of the Unicode property White_Space. -/
def blankRanges : List (Nat × Nat) :=
  [(0x09, 0x0d), (0x20, 0x20), (0x85, 0x85), (0xa0, 0xa0), (0x1680, 0x1680), (0x2000, 0x200a),
    (0x2028, 0x2029), (0x202f, 0x202f), (0x205f, 0x205f), (0x3000, 0x3000)]

def isBlank (c : Char) : Bool :=
  blankRanges.any fun (low, high) => low ≤ c.toNat && c.toNat ≤ high

namespace Text

def trimStart (text : Text) : Text := text.dropWhile isBlank

def trimEnd (text : Text) : Text := (text.reverse.dropWhile isBlank).reverse

def trim (text : Text) (region : Span) : Option Span :=
  let body := text.slice region
  let start := region.start + byteLength (body.takeWhile isBlank)
  match body.trimStart with
  | [] => none
  | content => some ⟨start, start + byteLength content.trimEnd⟩

end Text

def isIndent (c : Char) : Bool := c == ' ' || c == '\t'

theorem isBlank_of_isIndent {c : Char} (h : isIndent c = true) : isBlank c = true := by
  simp only [isIndent, Bool.or_eq_true, beq_iff_eq] at h
  rcases h with rfl | rfl <;> decide

inductive LineEnding where
  | lf
  | crlf
  deriving DecidableEq, Repr

def LineEnding.text : LineEnding → Text
  | .lf => ['\n']
  | .crlf => ['\r', '\n']

namespace Text

/-- The lines of a text, each with its terminator; only the last may lack one. -/
def lines : Text → List Text
  | [] => []
  | c :: cs =>
    if c = '\n' then [c] :: lines cs
    else match lines cs with
      | [] => [[c]]
      | line :: rest => (c :: line) :: rest

def lastLine (text : Text) : Text := (text.reverse.takeWhile (· ≠ '\n')).reverse

def indentWidth (line : Text) : Nat := (line.takeWhile isIndent).length

def stripIndent (line : Text) (width : Nat) : Text := line.drop (min line.indentWidth width)

/-- The indentation of the line that holds `offset`, as far as it stands before it. -/
def lineIndent (text : Text) (offset : Nat) : Text :=
  (lastLine (text.takeBytes offset)).takeWhile isIndent

def endingAfter (before : Text) : LineEnding :=
  if before.getLast? = some '\r' then .crlf else .lf

/-- The terminator of the line that holds `offset`; the final line has none and takes that of
the line before it. -/
def lineEnding (text : Text) (offset : Nat) : LineEnding :=
  let before := text.takeBytes offset
  let after := text.dropBytes offset
  if '\n' ∈ after then endingAfter (before ++ after.takeWhile (· ≠ '\n'))
  else endingAfter (before.reverse.dropWhile (· ≠ '\n')).tail.reverse

theorem flatten_lines (text : Text) : (lines text).flatten = text := by
  induction text with
  | nil => rfl
  | cons c cs ih =>
    unfold lines
    split
    · simp [ih]
    · split
      next h => simp [h] at ih; simp [ih]
      next line rest h => simp [h] at ih; simp [ih]

end Text

structure LineColumn where
  line : Nat
  column : Nat
  deriving DecidableEq, Repr

namespace Text

def within : Nat → Text → Text
  | _, [] => []
  | bytes, c :: cs =>
    if c.utf8Size ≤ bytes then c :: within (bytes - c.utf8Size) cs else []

/-- Where an offset is; one past the end counts as the end, and one inside a character as its
start. -/
def lineColumn (text : Text) (offset : Nat) : LineColumn :=
  let before := text.within offset
  ⟨before.count '\n' + 1, before.lastLine.length + 1⟩

end Text
end AmdUnwrap
