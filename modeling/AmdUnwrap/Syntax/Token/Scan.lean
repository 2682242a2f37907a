import AmdUnwrap.Syntax.Token.Name
import AmdUnwrap.Syntax.Token.Number
import AmdUnwrap.Syntax.Token.Quoted

namespace AmdUnwrap.Token

def refused (newline : Bool) (start : Place) (cause : SyntaxError.Cause) : Token :=
  ⟨.bad cause, start, start, newline⟩

def scanString (newline : Bool) (start : Place) (quote : Char) (body : Text) : Token :=
  let inner := start.offset + quote.utf8Size
  match Quoted.stringStop quote 0 inner body with
  | .ok stop =>
    ⟨.string (body.takeBytes (stop.offset - quote.utf8Size - inner)), start, stop, newline⟩
  | .error cause => refused newline start cause

def scanTemplate (newline : Bool) (start : Place) : Token :=
  let inner := start.skip 1
  match Quoted.stretch? true 0 inner.offset inner.rest with
  | some stretch => ⟨.template stretch.closed stretch.wellEscaped, start, stretch.stop, newline⟩
  | none => refused newline start .unterminatedString

def scanNumber (newline : Bool) (start : Place) : Token :=
  match Number.length? start.rest with
  | some count => ⟨.number, start, start.skip count, newline⟩
  | none => refused newline start .invalidNumber

def scanPrivateName (newline : Bool) (start : Place) : Token :=
  match Name.at? (start.skip 1) with
  | some reading => ⟨.privateName reading.name, start, reading.stop, newline⟩
  | none => refused newline start .invalidCharacter

def scanWord (newline : Bool) (start : Place) : Token :=
  match Name.at? start with
  | some reading =>
    let keyword := if reading.escaped then none else Keyword.ofName? reading.name
    ⟨.word reading.name keyword, start, reading.stop, newline⟩
  | none => refused newline start .invalidEscape

def scanPunct (newline : Bool) (start : Place) : Token :=
  match Punct.read? start.rest with
  | some (spelling, sign) => ⟨.punct sign, start, start.skip spelling.length, newline⟩
  | none => refused newline start .invalidCharacter

def scan (newline : Bool) (start : Place) : Token :=
  match start.rest with
  | [] => ⟨.eof, start, start, newline⟩
  | c :: cs =>
    if c == '\x22' || c == '\x27' then scanString newline start c cs
    else if c == '\x60' then scanTemplate newline start
    else if c.isDigit || c == '.' && cs.head?.any Char.isDigit then scanNumber newline start
    else if c == '#' then scanPrivateName newline start
    else if c == '\\' || Identifier.opens c then scanWord newline start
    else scanPunct newline start

def afterGap (gap : Trivia.Gap) : Token :=
  match gap.unclosed with
  | some opening => refused gap.newline ⟨opening, []⟩ .unterminatedComment
  | none => scan gap.newline gap.stop

def next (mode : Mode) (p : Place) : Token :=
  afterGap (Trivia.skip mode .between p.offset false p.rest)

/-- The first token of a text, which counts as opening a line. A first line that starts with `#!`
is for the shell. -/
def first (mode : Mode) (text : Text) : Token :=
  let phase := if ['#', '!'].isPrefixOf text then Trivia.Phase.line else .between
  afterGap (Trivia.skip mode phase 0 true text)

def asRegex (t : Token) : Token :=
  match Regex.stop (t.start.skip 1) with
  | .ok stop => { t with kind := .regex, stop := stop }
  | .error cause => refused t.newline t.start cause

def asTemplate (t : Token) : Token := scanTemplate t.newline t.start

end AmdUnwrap.Token
