import AmdUnwrap.Syntax.Grammar.Pattern

namespace AmdUnwrap.Grammar
open Reading

def asDirective? : Node → Option Node
  | .mk .expressionStatement span [.mk (.string raw) inner []] =>
    some (.mk .directive span [.mk (.string raw) inner []])
  | _ => none

/-- The directives that open a body, and with them the first statement if it is none though it
starts with a string. -/
def prologue (d : Descent) (s : Setting) : (bound : Nat) → Reading (List Node)
  | 0 => return []
  | bound + 1 => do
    match (← current).kind with
    | .string _ =>
      let statement ← d.read s (.statement false)
      match asDirective? statement with
      | some directive => return directive :: (← prologue d s bound)
      | none => return [statement]
    | _ => return []

def statements (d : Descent) (s : Setting) : Reading (List Node) :=
  many (do
    match (← current).kind with
    | .punct .rbrace | .eof => return none
    | _ => return some (← d.read s (.statement false))) d.bound

def functionBody (d : Descent) (s : Setting) : Reading Node := do
  let start ← here
  expect .lbrace
  let opening ← prologue d s d.bound
  let rest ← statements d s
  expect .rbrace
  finish start .functionBody (opening ++ rest)

def methodFunction (d : Descent) (async generator : Bool) : Reading Node := do
  let start ← here
  let parameters ← parameterList d (inFunction async generator)
  let body ← functionBody d (inFunction async generator)
  finish start (.function async generator) [parameters, body]

def checkAccessor (form : Node.Form) (method : Node) : Reading Unit :=
  match form, method.children with
  | .getter, parameters :: _ =>
    if parameters.children.isEmpty then return
    else fail .accessorParameters method.span.start
  | .setter, parameters :: _ =>
    match parameters.children with
    | [.mk .parameter _ _] => return
    | _ => fail .accessorParameters method.span.start
  | _, _ => return

/-- A function as an expression; its name is read by its own rules. -/
def functionExpression (d : Descent) (s : Setting) : Reading Node := do
  let start ← here
  let async ← acceptWord .asyncWord
  expectWord .functionWord
  let generator ← accept .star
  let name ←
    if (← current).isName then
      pure [← bindingName { s with yields := generator, awaits := async }]
    else pure []
  let parameters ← parameterList d (inFunction async generator)
  let body ← functionBody d (inFunction async generator)
  finish start (.function async generator) (name ++ [parameters, body])

def functionDeclaration (d : Descent) (s : Setting) (nameless : Bool) : Reading Node := do
  let start ← here
  let async ← acceptWord .asyncWord
  expectWord .functionWord
  let generator ← accept .star
  let name ←
    if nameless && !(← current).isName then pure [] else pure [← bindingName s]
  let parameters ← parameterList d (inFunction async generator)
  let body ← functionBody d (inFunction async generator)
  finish start (.function async generator) (name ++ [parameters, body])

def arrowSign : Reading Unit := do
  let t ← current
  if t.isPunct .arrow && !t.newline then discard move else refuse

def opensParameter (t : Token) : Bool :=
  match t.kind with
  | .punct .rparen | .punct .ellipsis | .punct .lbrace | .punct .lbracket => true
  | _ => t.isName

/-- The parameters of an arrow function up to its sign, with whether it is asynchronous, or
nothing if none stands here. -/
def arrowHead? (d : Descent) (s : Setting) : Reading (Option (Bool × Node)) := do
  match (← current).kind with
  | .punct .lparen =>
    if opensParameter (← ahead) then
      attempt do
        let parameters ← parameterList d s
        arrowSign
        return (false, parameters)
    else return none
  | .word _ keyword =>
    let next ← ahead
    let async := keyword == some .asyncWord && !next.newline
    if async && next.isName then
      attempt do
        discard move
        let parameters ← loneParameter { s with awaits := true }
        arrowSign
        return (true, parameters)
    else if async && next.isPunct .lparen then
      attempt do
        discard move
        let parameters ← parameterList d { s with awaits := true }
        arrowSign
        return (true, parameters)
    else if next.isPunct .arrow then
      attempt do
        let parameters ← loneParameter s
        arrowSign
        return (false, parameters)
    else return none
  | _ => return none

/-- What follows the sign. An expression stands for a body that holds it as its one statement. -/
def arrowBody (d : Descent) (s : Setting) (async : Bool) : Reading (Bool × Node) := do
  let inner := { inFunction async false with inOperator := s.inOperator }
  if ← sees .lbrace then
    return (false, ← functionBody d { inner with inOperator := true })
  let value ← d.read inner .assignment
  return (true, .mk .functionBody value.span [.mk .expressionStatement value.span [value]])

def arrowFunction? (d : Descent) (s : Setting) : Reading (Option Node) := do
  let start ← here
  match ← arrowHead? d s with
  | none => return none
  | some (async, parameters) =>
    let (concise, body) ← arrowBody d s async
    return some (← finish start (.arrow async concise) [parameters, body])

end AmdUnwrap.Grammar
