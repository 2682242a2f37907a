import AmdUnwrap.Syntax.Node
import AmdUnwrap.Syntax.Token.Scan

/-!
Reading a program token by token. A reading looks at the current token and either refuses it or
moves on; it can be tried and taken back, since nothing but the cursor changes.
-/

namespace AmdUnwrap

structure Cursor where
  mode : Mode
  token : Token
  last : Nat

abbrev Reading := StateT Cursor (Except SyntaxError)

namespace Reading

def fail {α : Type} (cause : SyntaxError.Cause) (offset : Nat) : Reading α :=
  throw ⟨cause, some offset⟩

def current : Reading Token := return (← get).token

def ahead : Reading Token := return Token.next (← get).mode (← get).token.stop

def refuse {α : Type} : Reading α := do
  let t ← current
  match t.kind with
  | .bad cause => fail cause t.start.offset
  | _ => fail .unexpectedToken t.start.offset

def move : Reading Token := do
  let c ← get
  set { c with token := Token.next c.mode c.token.stop, last := c.token.stop.offset }
  return c.token

def reread (f : Token → Token) : Reading Unit :=
  modify fun c => { c with token := f c.token }

def sees (sign : Punct) : Reading Bool := return (← current).isPunct sign

def seesWord (keyword : Keyword) : Reading Bool := return (← current).isWord keyword

def accept (sign : Punct) : Reading Bool := do
  if ← sees sign then
    discard move
    return true
  return false

def acceptWord (keyword : Keyword) : Reading Bool := do
  if ← seesWord keyword then
    discard move
    return true
  return false

def expect (sign : Punct) : Reading Unit := do
  if !(← accept sign) then refuse

def expectWord (keyword : Keyword) : Reading Unit := do
  if !(← acceptWord keyword) then refuse

def here : Reading Nat := return (← current).start.offset

def finish (start : Nat) (kind : Node.Kind) (children : List Node) : Reading Node :=
  return .mk kind ⟨start, (← get).last⟩ children

/-- Goes back to where it began if the reading fails. -/
def attempt {α : Type} (reading : Reading α) : Reading (Option α) := fun c =>
  match reading c with
  | .ok (a, c) => .ok (some a, c)
  | .error _ => .ok (none, c)

/-- Repeats a reading until it gives nothing, at most `bound` times. -/
def many {α : Type} (reading : Reading (Option α)) : (bound : Nat) → Reading (List α)
  | 0 => return []
  | bound + 1 => do
    match ← reading with
    | none => return []
    | some a => return a :: (← many reading bound)

def iterate {α : Type} (step : α → Reading (Option α)) : (bound : Nat) → α → Reading α
  | 0, a => return a
  | bound + 1, a => do
    match ← step a with
    | none => return a
    | some b => iterate step bound b

/-- Items with commas between them up to a closing sign, and whether a comma follows the last. -/
def separated {α : Type} (item : Reading α) (close : Punct) :
    (bound : Nat) → Reading (List α × Bool)
  | 0 => refuse
  | bound + 1 => do
    if ← accept close then return ([], false)
    let first ← item
    if ← accept .comma then
      if ← accept close then return ([first], true)
      let (rest, trailing) ← separated item close bound
      return (first :: rest, trailing)
    expect close
    return ([first], false)

/-- The end of a statement: a semicolon, or a place where one may be left out. -/
def semicolon : Reading Unit := do
  let t ← current
  match t.kind with
  | .punct .semicolon => discard move
  | .punct .rbrace | .eof => return
  | .bad _ => if t.newline then return else refuse
  | _ => if t.newline then return else fail .missingSemicolon t.start.offset

end Reading
end AmdUnwrap
