import AmdUnwrap.Syntax.Token

namespace AmdUnwrap.Trivia

def isTerminator (c : Char) : Bool :=
  c == '\n' || c == '\r' || c == '\u2028' || c == '\u2029'

/-- White space of the grammar, with the next-line and zero-width characters that editors leave. -/
def isSpace (c : Char) : Bool :=
  c == ' ' || c == '\t' || c == '\x0b' || c == '\x0c' || c == '\u0085' || c == '\u00a0' ||
    c == '\u1680' || ('\u2000' ≤ c && c ≤ '\u200b') || c == '\u202f' || c == '\u205f' ||
    c == '\u3000' || c == '\ufeff'

inductive Phase where
  | between
  | line
  | opening (start : Nat)
  | block (start : Nat)
  | closing
  deriving DecidableEq, Repr

structure Gap where
  stop : Place
  newline : Bool
  unclosed : Option Nat

/-- Scripts, but not modules, know the two comment signs of the first browsers. A closing one
counts only where nothing but trivia stands before it on its line. -/
def opensLegacyComment (mode : Mode) (newline : Bool) (text : Text) : Bool :=
  mode == .global &&
    (['<', '!', '-', '-'].isPrefixOf text || newline && ['-', '-', '>'].isPrefixOf text)

def skip (mode : Mode) : Phase → Nat → Bool → Text → Gap
  | .opening start, offset, newline, [] => ⟨⟨offset, []⟩, newline, some start⟩
  | .block start, offset, newline, [] => ⟨⟨offset, []⟩, newline, some start⟩
  | _, offset, newline, [] => ⟨⟨offset, []⟩, newline, none⟩
  | .line, offset, newline, c :: cs =>
    if isTerminator c then skip mode .between (offset + c.utf8Size) true cs
    else skip mode .line (offset + c.utf8Size) newline cs
  | .opening start, offset, newline, c :: cs =>
    skip mode (.block start) (offset + c.utf8Size) newline cs
  | .block start, offset, newline, c :: cs =>
    if c == '*' && cs.head? == some '/' then skip mode .closing (offset + c.utf8Size) newline cs
    else skip mode (.block start) (offset + c.utf8Size) (newline || isTerminator c) cs
  | .closing, offset, newline, c :: cs => skip mode .between (offset + c.utf8Size) newline cs
  | .between, offset, newline, c :: cs =>
    if isTerminator c then skip mode .between (offset + c.utf8Size) true cs
    else if isSpace c then skip mode .between (offset + c.utf8Size) newline cs
    else if c == '/' && cs.head? == some '/' then skip mode .line (offset + c.utf8Size) newline cs
    else if c == '/' && cs.head? == some '*' then
      skip mode (.opening offset) (offset + c.utf8Size) newline cs
    else if opensLegacyComment mode newline (c :: cs) then
      skip mode .line (offset + c.utf8Size) newline cs
    else ⟨⟨offset, c :: cs⟩, newline, none⟩

end AmdUnwrap.Trivia
