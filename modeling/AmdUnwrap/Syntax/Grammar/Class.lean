import AmdUnwrap.Syntax.Grammar.Function

namespace AmdUnwrap.Grammar
open Reading

/-- Whether a word before this token is the name of a member rather than a modifier of it. -/
def endsName (t : Token) : Bool :=
  match t.kind with
  | .punct .lparen | .punct .assign | .punct .semicolon | .punct .rbrace | .eof => true
  | _ => false

def modifier (keyword : Keyword) (applies : Token → Bool) : Reading Bool := do
  if (← current).isWord keyword && applies (← ahead) then
    discard move
    return true
  return false

def inField : Setting := ⟨true, false, false, false⟩

def inStaticBlock : Setting := ⟨true, false, true, false⟩

def fieldRest (d : Descent) (start : Nat) (static : Bool) (key : Node) : Reading Node := do
  if ← accept .assign then
    let value ← d.read inField .assignment
    semicolon
    finish start (.field static) [key, value]
  else
    semicolon
    finish start (.field static) [key]

def accessorForm : Reading Node.Form := do
  if ← modifier .getWord opensKey then return .getter
  if ← modifier .setWord opensKey then return .setter
  return .value

def namedMember (d : Descent) (s : Setting) (start : Nat) (static : Bool) : Reading Node := do
  let async ← modifier .asyncWord fun next =>
    !next.newline && (opensKey next || next.isPunct .star)
  let generator ← accept .star
  let form ← if async || generator then pure Node.Form.value else accessorForm
  let key ← memberKey d s
  if async || generator || form != .value || (← sees .lparen) then
    let method ← methodFunction d async generator
    checkAccessor form method
    let form := if form == .value then Node.Form.method else form
    finish start (.method static form) [key, method]
  else fieldRest d start static key

def staticBlock (d : Descent) (start : Nat) : Reading Node := do
  expect .lbrace
  let body ← statements d inStaticBlock
  expect .rbrace
  finish start .staticBlock body

def classMember (d : Descent) (s : Setting) : Reading Node := do
  let start ← here
  let static ← modifier .staticWord fun next => !endsName next
  let opensBlock ← sees .lbrace
  if static && opensBlock then staticBlock d start else namedMember d s start static

def classBody (d : Descent) (s : Setting) : Reading Node := do
  let start ← here
  expect .lbrace
  let members ← many (do
    discard <| many (do if ← accept .semicolon then return some () else return none) d.bound
    if ← sees .rbrace then return none
    return some (← classMember d s)) d.bound
  expect .rbrace
  finish start .classBody members

def classDefinition (d : Descent) (s : Setting) (nameless : Bool) : Reading Node := do
  let start ← here
  expectWord .classWord
  let name ←
    if nameless && !(← current).isName then pure [] else pure [← bindingName s]
  let parent ←
    if ← acceptWord .extendsWord then pure [← d.read s .leftHand] else pure []
  let body ← classBody d s
  finish start .classDefinition (name ++ parent ++ [body])

end AmdUnwrap.Grammar
