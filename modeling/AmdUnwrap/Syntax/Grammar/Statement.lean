import AmdUnwrap.Syntax.Grammar.Module

namespace AmdUnwrap.Grammar
open Reading

def block (d : Descent) (s : Setting) : Reading Node := do
  let start ← here
  expect .lbrace
  let body ← statements d s
  expect .rbrace
  finish start .block body

def condition (d : Descent) (s : Setting) : Reading Node := do
  expect .lparen
  let test ← d.read s .expression
  expect .rparen
  return test

/-- An expression statement, or a label with the statement that it names. -/
def expressionStatement (d : Descent) (s : Setting) : Reading Node := do
  let start ← here
  let value ← d.read s .expression
  match value with
  | .mk (.identifier name) span _ =>
    if ← accept .colon then
      let body ← d.read s (.statement true)
      return ← finish start .labeledStatement [.mk (.label name) span [], body]
  | _ => pure ()
  semicolon
  finish start .expressionStatement [value]

def functionStatement (d : Descent) (s : Setting) (alone : Bool) : Reading Node := do
  let function ← functionDeclaration d s false
  match alone, function.kind with
  | true, .function false false => return function
  | true, _ => fail .declarationPosition function.span.start
  | false, _ => return function

def ifStatement (d : Descent) (s : Setting) : Reading Node := do
  let start ← here
  discard move
  let test ← condition d s
  let yes ← d.read s (.statement true)
  if ← acceptWord .elseWord then
    let no ← d.read s (.statement true)
    finish start .ifStatement [test, yes, no]
  else finish start .ifStatement [test, yes]

def headedStatement (d : Descent) (s : Setting) (kind : Node.Kind) : Reading Node := do
  let start ← here
  discard move
  let test ← condition d s
  let body ← d.read s (.statement true)
  finish start kind [test, body]

/-- A loop that tests after its body. It ends at the parenthesis, semicolon or not. -/
def doStatement (d : Descent) (s : Setting) : Reading Node := do
  let start ← here
  discard move
  let body ← d.read s (.statement true)
  expectWord .whileWord
  let test ← condition d s
  discard <| accept .semicolon
  finish start .doWhileStatement [body, test]

def forEach (d : Descent) (s : Setting) (start : Nat) (awaits : Bool) (target : Node) :
    Reading Node := do
  let overKeys ← seesWord .inWord
  if overKeys && !awaits then
    discard move
    let source ← d.read s .expression
    expect .rparen
    let body ← d.read s (.statement true)
    finish start .forInStatement [target, source, body]
  else
    expectWord .ofWord
    let source ← d.read s .assignment
    expect .rparen
    let body ← d.read s (.statement true)
    finish start (.forOfStatement awaits) [target, source, body]

def optionalExpression (d : Descent) (s : Setting) (close : Punct) : Reading (List Node) := do
  if ← accept close then return []
  let value ← d.read s .expression
  expect close
  return [value]

def forSteps (d : Descent) (s : Setting) (start : Nat) (awaits : Bool) (opening : List Node) :
    Reading Node := do
  if awaits then refuse
  expect .semicolon
  let test ← optionalExpression d s .semicolon
  let step ← optionalExpression d s .rparen
  let body ← d.read s (.statement true)
  finish start .forStatement (opening ++ test ++ step ++ [body])

def seesEach : Reading Bool := do
  let t ← current
  return t.isWord .inWord || t.isWord .ofWord

def forDeclaration (d : Descent) (s : Setting) (start : Nat) (awaits : Bool) : Reading Node := do
  let opening ← here
  let (keyword, items) ← declarators d { s with inOperator := false }
  let declaration ← finish opening (.variableDeclaration keyword) items
  if ← seesEach then forEach d s start awaits declaration
  else
    checkInitializers keyword items
    forSteps d s start awaits [declaration]

/-- Whether the target of a loop over values opens like a declaration, or is just `async`, which
would read as the start of an arrow function. -/
def misleads (awaits : Bool) (first : Token) (target : Node) : Bool :=
  first.isWord .letWord ||
    match target.kind with
    | .identifier _ => !awaits && first.isWord .asyncWord
    | _ => false

def forExpression (d : Descent) (s : Setting) (start : Nat) (awaits : Bool) : Reading Node := do
  let first ← current
  let opening ← d.read { s with inOperator := false } .expression
  if ← seesEach then
    let overValues ← seesWord .ofWord
    if overValues && misleads awaits first opening then refuse
    forEach d s start awaits opening
  else forSteps d s start awaits [opening]

def forStatement (d : Descent) (s : Setting) : Reading Node := do
  let start ← here
  discard move
  let awaits ← if s.awaits then acceptWord .awaitWord else pure false
  expect .lparen
  match (← current).kind with
  | .punct .semicolon => forSteps d s start awaits []
  | .word _ (some .varWord) | .word _ (some .constWord) => forDeclaration d s start awaits
  | .word _ (some .letWord) =>
    if opensBinding (← ahead) then forDeclaration d s start awaits
    else forExpression d s start awaits
  | _ => forExpression d s start awaits

def jumpStatement (s : Setting) (kind : Node.Kind) : Reading Node := do
  let start ← here
  discard move
  let t ← current
  let target ←
    if t.isName && !t.newline then
      let name ← variableName s t
      pure [← plain (.label name)]
    else pure []
  semicolon
  finish start kind target

def endsStatement (t : Token) : Bool :=
  match t.kind with
  | .punct .semicolon | .punct .rbrace | .eof => true
  | _ => t.newline

def returnStatement (d : Descent) (s : Setting) : Reading Node := do
  let start ← here
  if !s.returns then fail .returnOutsideFunction start
  discard move
  let value ←
    if endsStatement (← current) then pure [] else pure [← d.read s .expression]
  semicolon
  finish start .returnStatement value

def throwStatement (d : Descent) (s : Setting) : Reading Node := do
  let start ← here
  discard move
  let t ← current
  if t.newline then fail .newlineAfterThrow t.start.offset
  let value ← d.read s .expression
  semicolon
  finish start .throwStatement [value]

def switchCase (d : Descent) (s : Setting) : Reading Node := do
  let start ← here
  let test ←
    if ← acceptWord .caseWord then pure [← d.read s .expression]
    else do
      expectWord .defaultWord
      pure []
  expect .colon
  let body ← many (do
    match (← current).kind with
    | .punct .rbrace | .eof | .word _ (some .caseWord) | .word _ (some .defaultWord) => return none
    | _ => return some (← d.read s (.statement false))) d.bound
  finish start .switchCase (test ++ body)

def switchStatement (d : Descent) (s : Setting) : Reading Node := do
  let start ← here
  discard move
  let value ← condition d s
  expect .lbrace
  let cases ← many (do
    if ← sees .rbrace then return none else return some (← switchCase d s)) d.bound
  expect .rbrace
  finish start .switchStatement (value :: cases)

def catchClause (d : Descent) (s : Setting) : Reading Node := do
  let start ← here
  expectWord .catchWord
  let target ←
    if ← accept .lparen then do
      let target ← d.read s .pattern
      expect .rparen
      pure [target]
    else pure []
  let body ← block d s
  finish start .catchClause (target ++ [body])

def tryStatement (d : Descent) (s : Setting) : Reading Node := do
  let start ← here
  discard move
  let body ← block d s
  let handler ← if ← seesWord .catchWord then pure [← catchClause d s] else pure []
  let finalizer ← if ← acceptWord .finallyWord then pure [← block d s] else pure []
  if handler.isEmpty && finalizer.isEmpty then fail .missingHandler (← here)
  finish start .tryStatement (body :: handler ++ finalizer)

def debuggerStatement : Reading Node := do
  let start ← here
  discard move
  semicolon
  finish start .debuggerStatement []

def declaration (alone : Bool) (reading : Reading Node) : Reading Node := do
  if alone then fail .declarationPosition (← here) else reading

/-- Whether `let` before this token is a plain name: the operand of an operator, the start of a
member or a call, or a statement by itself. -/
def namesLet (s : Setting) (t : Token) : Bool :=
  (operator? s t).isSome ||
    match t.kind with
    | .punct .dot | .punct .lparen | .punct .semicolon => true
    | .punct sign => sign.isAssignment
    | _ => false

/-- A declaration, unless `let` is a plain name. In the body of another statement nothing may be
declared, so there `let` is a name whatever follows, and only a bracket after it is refused. -/
def letStatement (d : Descent) (s : Setting) (alone : Bool) : Reading Node := do
  let next ← ahead
  if namesLet s next then expressionStatement d s
  else if alone && !next.isPunct .lbracket then expressionStatement d s
  else declaration alone (variableStatement d s)

def importStatement (d : Descent) (s : Setting) : Reading Node := do
  let next ← ahead
  if next.isPunct .lparen || next.isPunct .dot then expressionStatement d s
  else importDeclaration d s

def wordStatement (d : Descent) (s : Setting) (alone : Bool) : Keyword → Reading Node
  | .varWord => variableStatement d s
  | .constWord => declaration alone (variableStatement d s)
  | .letWord => letStatement d s alone
  | .functionWord => functionStatement d s alone
  | .asyncWord => do
    if continuesAsync (← ahead) then functionStatement d s alone else expressionStatement d s
  | .classWord => declaration alone (classDefinition d s false)
  | .ifWord => ifStatement d s
  | .forWord => forStatement d s
  | .whileWord => headedStatement d s .whileStatement
  | .withWord => headedStatement d s .withStatement
  | .doWord => doStatement d s
  | .breakWord => jumpStatement s .breakStatement
  | .continueWord => jumpStatement s .continueStatement
  | .returnWord => returnStatement d s
  | .throwWord => throwStatement d s
  | .switchWord => switchStatement d s
  | .tryWord => tryStatement d s
  | .debuggerWord => debuggerStatement
  | .importWord => importStatement d s
  | .exportWord => exportDeclaration d s
  | _ => expressionStatement d s

def statement (d : Descent) (s : Setting) (alone : Bool) : Reading Node := do
  let t ← current
  match t.kind with
  | .punct .lbrace => block d s
  | .punct .semicolon => plain .emptyStatement
  | .word _ (some keyword) => wordStatement d s alone keyword
  | _ => expressionStatement d s

end AmdUnwrap.Grammar
