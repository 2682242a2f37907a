import AmdUnwrap.Syntax.Error
import AmdUnwrap.Syntax.Punct
import AmdUnwrap.Syntax.Word

namespace AmdUnwrap

/-- A classic script, or a module with `import`, `export` and top-level `await`. -/
inductive Mode where
  | global
  | module
  deriving DecidableEq, Repr, Inhabited

/-- A position in a text together with what follows it. -/
structure Place where
  offset : Nat
  rest : Text
  deriving DecidableEq, Repr

namespace Place

def skip : Nat → Place → Place
  | 0, p => p
  | _ + 1, ⟨offset, []⟩ => ⟨offset, []⟩
  | n + 1, ⟨offset, c :: cs⟩ => skip n ⟨offset + c.utf8Size, cs⟩

end Place

namespace Token

inductive Kind where
  /-- A name with its escapes resolved; spelled with escapes it is never a keyword. -/
  | word (name : Text) (keyword : Option Keyword)
  | privateName (name : Text)
  | punct (sign : Punct)
  | number
  | string (raw : Text)
  /-- A stretch of a template, up to its end or to the next substitution. -/
  | template (closed : Bool) (wellEscaped : Bool)
  | regex
  | eof
  | bad (cause : SyntaxError.Cause)
  deriving DecidableEq, Repr

end Token

structure Token where
  kind : Token.Kind
  start : Place
  stop : Place
  /-- A line terminator stands between this token and the one before. -/
  newline : Bool
  deriving DecidableEq, Repr

namespace Token

def isPunct (t : Token) (sign : Punct) : Bool := t.kind == .punct sign

def isWord (t : Token) (keyword : Keyword) : Bool :=
  match t.kind with
  | .word _ (some k) => k == keyword
  | _ => false

def isName (t : Token) : Bool :=
  match t.kind with
  | .word name _ => !Keyword.isReserved name
  | _ => false

end Token
end AmdUnwrap
