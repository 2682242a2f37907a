import AmdUnwrap.Syntax.Reader

/-!
What the rules of the grammar share. A rule is no recursion by itself: it is given a descent, by
which it reads the constructs nested in its own.
-/

namespace AmdUnwrap

/-- What the surroundings of a construct allow in it. -/
structure Setting where
  inOperator : Bool
  yields : Bool
  awaits : Bool
  returns : Bool
  deriving DecidableEq, Repr

inductive Goal where
  /-- A statement; `alone` as the body of another one, where no list of statements stands. -/
  | statement (alone : Bool)
  | expression
  | assignment
  /-- Operands joined by operators at least as strong as `floor`. -/
  | binary (floor : Nat)
  | unary
  | leftHand
  | callee
  | pattern
  deriving DecidableEq, Repr

/-- A way to read what is nested, and a bound on how often anything repeats. -/
structure Descent where
  bound : Nat
  read : Setting → Goal → Reading Node

namespace Grammar
open Reading

def inFunction (async generator : Bool) : Setting := ⟨true, generator, async, true⟩

def variableName (s : Setting) (t : Token) : Reading Text :=
  match t.kind with
  | .word name _ =>
    let keyword := Keyword.ofName? name
    if Keyword.isReserved name then fail .unexpectedToken t.start.offset
    else if s.yields && keyword == some .yieldWord || s.awaits && keyword == some .awaitWord then
      fail .reservedWord t.start.offset
    else return name
  | _ => refuse

def bindingName (s : Setting) : Reading Node := do
  let name ← variableName s (← current)
  let t ← move
  finish t.start.offset (.binding name) []

def reference (s : Setting) : Reading Node := do
  let name ← variableName s (← current)
  let t ← move
  finish t.start.offset (.identifier name) []

def stringLiteral : Reading Node := do
  match (← current).kind with
  | .string raw =>
    let t ← move
    finish t.start.offset (.string raw) []
  | _ => refuse

def opensKey (t : Token) : Bool :=
  match t.kind with
  | .word _ _ | .string _ | .number | .privateName _ | .punct .lbracket => true
  | _ => false

def propertyKey (d : Descent) (s : Setting) : Reading Node := do
  let t ← current
  let start := t.start.offset
  match t.kind with
  | .word name _ =>
    discard move
    finish start (.propertyName name) []
  | .string _ => stringLiteral
  | .number =>
    discard move
    finish start .literal []
  | .punct .lbracket =>
    discard move
    let key ← d.read { s with inOperator := true } .assignment
    expect .rbracket
    finish start .computedName [key]
  | _ => refuse

def memberKey (d : Descent) (s : Setting) : Reading Node := do
  let t ← current
  match t.kind with
  | .privateName name =>
    discard move
    finish t.start.offset (.privateName name) []
  | _ => propertyKey d s

def memberName : Reading Node := do
  let t ← current
  match t.kind with
  | .word name _ =>
    discard move
    finish t.start.offset (.propertyName name) []
  | .privateName name =>
    discard move
    finish t.start.offset (.privateName name) []
  | _ => refuse

/-- Items of an array, gaps between commas included, up to the closing bracket, and whether a
comma follows the last item. -/
def elements (item : Reading Node) : (bound : Nat) → Reading (List Node × Bool)
  | 0 => refuse
  | bound + 1 => do
    if ← accept .rbracket then return ([], false)
    if ← sees .comma then
      let gap ← here
      discard move
      let (rest, trailing) ← elements item bound
      return (.mk .elision ⟨gap, gap⟩ [] :: rest, trailing)
    let first ← item
    if ← accept .rbracket then return ([first], false)
    expect .comma
    if ← accept .rbracket then return ([first], true)
    let (rest, trailing) ← elements item bound
    return (first :: rest, trailing)

end Grammar
end AmdUnwrap
