import AmdUnwrap.Syntax.Token.Name
import AmdUnwrap.Syntax.Token.Trivia

namespace AmdUnwrap.Quoted

def stringStop (quote : Char) : Nat → Nat → Text → Except SyntaxError.Cause Place
  | _, _, [] => .error .unterminatedString
  | pending + 1, offset, c :: cs => stringStop quote pending (offset + c.utf8Size) cs
  | 0, offset, c :: cs =>
    if c == quote then .ok ⟨offset + c.utf8Size, cs⟩
    else if c == '\n' || c == '\r' then .error .unterminatedString
    else if c == '\\' then
      match Escape.stringLength? cs with
      | some count => stringStop quote count (offset + c.utf8Size) cs
      | none => .error (if cs.isEmpty then .unterminatedString else .invalidEscape)
    else stringStop quote 0 (offset + c.utf8Size) cs

structure Stretch where
  closed : Bool
  wellEscaped : Bool
  stop : Place

/-- One stretch of a template, past the mark that ends it. A malformed escape spoils it only
where no tag handles it, so it is noted and read over. -/
def stretch? (wellEscaped : Bool) : Nat → Nat → Text → Option Stretch
  | _, _, [] => none
  | pending + 1, offset, c :: cs => stretch? wellEscaped pending (offset + c.utf8Size) cs
  | 0, offset, c :: cs =>
    if c == '\x60' then some ⟨true, wellEscaped, ⟨offset + c.utf8Size, cs⟩⟩
    else if c == '$' && cs.head? == some '{' then
      some ⟨false, wellEscaped, Place.skip 2 ⟨offset, c :: cs⟩⟩
    else if c == '\\' then
      match Escape.stringLength? cs with
      | some count =>
        stretch? (wellEscaped && !Escape.isOctal cs) count (offset + c.utf8Size) cs
      | none => stretch? false 1 (offset + c.utf8Size) cs
    else stretch? wellEscaped 0 (offset + c.utf8Size) cs

end AmdUnwrap.Quoted

namespace AmdUnwrap.Regex

/-- Where the body ends, past the closing slash. A slash in brackets or after a backslash closes
nothing. -/
def bodyStop? (bracketed escaped : Bool) : Nat → Text → Option Place
  | _, [] => none
  | offset, c :: cs =>
    let offset := offset + c.utf8Size
    if Trivia.isTerminator c then none
    else if escaped then bodyStop? bracketed false offset cs
    else if c == '\\' then bodyStop? bracketed true offset cs
    else if c == '[' then bodyStop? true false offset cs
    else if c == ']' then bodyStop? false false offset cs
    else if c == '/' && !bracketed then some ⟨offset, cs⟩
    else bodyStop? bracketed false offset cs

def wellFlagged : Text → Bool
  | [] => true
  | c :: cs =>
    ['d', 'g', 'i', 'm', 's', 'u', 'v', 'y'].contains c && !cs.contains c && wellFlagged cs

def stop (inner : Place) : Except SyntaxError.Cause Place :=
  match bodyStop? false false inner.offset inner.rest with
  | none => .error .unterminatedRegex
  | some tail =>
    let flags := tail.rest.takeWhile Identifier.continues
    if wellFlagged flags then .ok (tail.skip flags.length) else .error .regexFlag

end AmdUnwrap.Regex
