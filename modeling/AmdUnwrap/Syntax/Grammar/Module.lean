import AmdUnwrap.Syntax.Grammar.Expression

namespace AmdUnwrap.Grammar
open Reading

def declarator (d : Descent) (s : Setting) : Reading Node := do
  let start ← here
  let target ← d.read s .pattern
  if ← accept .assign then
    let value ← d.read s .assignment
    finish start .declarator [target, value]
  else finish start .declarator [target]

def bindingKeyword : Reading BindingKeyword := do
  match (← current).kind with
  | .word _ (some .varWord) => discard move; return .varKeyword
  | .word _ (some .letWord) => discard move; return .letKeyword
  | .word _ (some .constWord) => discard move; return .constKeyword
  | _ => refuse

def declarators (d : Descent) (s : Setting) : Reading (BindingKeyword × List Node) := do
  let keyword ← bindingKeyword
  let first ← declarator d s
  let rest ← many (do
    if ← accept .comma then return some (← declarator d s) else return none) d.bound
  return (keyword, first :: rest)

/-- Outside the heads of loops over a collection, patterns and constants need a value. -/
def lacksInitializer (keyword : BindingKeyword) : Node → Bool
  | .mk .declarator _ [.mk (.binding _) _ _] => keyword == .constKeyword
  | .mk .declarator _ [_] => true
  | _ => false

def checkInitializers (keyword : BindingKeyword) (items : List Node) : Reading Unit :=
  match items.find? (lacksInitializer keyword) with
  | some item => fail .missingInitializer item.span.start
  | none => return

def variableStatement (d : Descent) (s : Setting) : Reading Node := do
  let start ← here
  let (keyword, items) ← declarators d s
  checkInitializers keyword items
  semicolon
  finish start (.variableDeclaration keyword) items

def opensBinding (t : Token) : Bool :=
  t.isName || t.isPunct .lbracket || t.isPunct .lbrace

def continuesAsync (t : Token) : Bool := t.isWord .functionWord && !t.newline

def moduleName : Reading Node := do
  let t ← current
  match t.kind with
  | .word name _ => plain (.propertyName name)
  | _ => stringLiteral

def requestAttribute : Reading Node := do
  let start ← here
  let key ← moduleName
  expect .colon
  let value ← stringLiteral
  finish start .importAttribute [key, value]

def attributes (d : Descent) : Reading (List Node) := do
  if ← acceptWord .withWord then
    expect .lbrace
    let (items, _) ← separated requestAttribute .rbrace d.bound
    return items
  else return []

def fromClause (d : Descent) : Reading (List Node) := do
  expectWord .fromWord
  let source ← stringLiteral
  return source :: (← attributes d)

def importSpecifier (s : Setting) : Reading Node := do
  let start ← here
  if (← ahead).isWord .asWord then
    let name ← moduleName
    expectWord .asWord
    let target ← bindingName s
    finish start .importSpecifier [name, target]
  else
    let target ← bindingName s
    finish start .importSpecifier [target]

def importNames (d : Descent) (s : Setting) : Reading (List Node) := do
  let start ← here
  if ← accept .star then
    expectWord .asWord
    let target ← bindingName s
    return [← finish start .namespaceSpecifier [target]]
  else
    expect .lbrace
    let (items, _) ← separated (importSpecifier s) .rbrace d.bound
    return items

def importClause (d : Descent) (s : Setting) : Reading (List Node) := do
  if (← current).isName then
    let start ← here
    let target ← bindingName s
    let first ← finish start .importSpecifier [target]
    if ← accept .comma then return first :: (← importNames d s) else return [first]
  else importNames d s

def importDeclaration (d : Descent) (s : Setting) : Reading Node := do
  let start ← here
  expectWord .importWord
  let parts ←
    match (← current).kind with
    | .string _ => pure ((← stringLiteral) :: (← attributes d))
    | _ => do
      let names ← importClause d s
      pure (names ++ (← fromClause d))
  semicolon
  finish start .importDeclaration parts

def exportSpecifier : Reading Node := do
  let start ← here
  let name ← moduleName
  if ← acceptWord .asWord then
    let outside ← moduleName
    finish start .exportSpecifier [name, outside]
  else finish start .exportSpecifier [name]

def namesVariable : Node → Bool
  | .mk .exportSpecifier _ (.mk (.propertyName name) _ _ :: _) => !Keyword.isReserved name
  | _ => false

def exportNames (d : Descent) (start : Nat) : Reading Node := do
  expect .lbrace
  let (items, _) ← separated exportSpecifier .rbrace d.bound
  let source ← if ← seesWord .fromWord then fromClause d else pure []
  if source.isEmpty then
    match items.find? (!namesVariable ·) with
    | some item => fail .unexpectedToken item.span.start
    | none => pure ()
  semicolon
  finish start .exportNamed (items ++ source)

def exportEverything (d : Descent) (start : Nat) : Reading Node := do
  expect .star
  let name ← if ← acceptWord .asWord then pure [← moduleName] else pure []
  let source ← fromClause d
  semicolon
  finish start .exportAll (name ++ source)

def exportDefault (d : Descent) (s : Setting) (start : Nat) : Reading Node := do
  let t ← current
  if t.isWord .functionWord || t.isWord .asyncWord && continuesAsync (← ahead) then
    finish start .exportDefault [← functionDeclaration d s true]
  else if t.isWord .classWord then
    finish start .exportDefault [← classDefinition d s true]
  else
    let value ← d.read s .assignment
    semicolon
    finish start .exportDefault [value]

def exportDeclaration (d : Descent) (s : Setting) : Reading Node := do
  let start ← here
  expectWord .exportWord
  let t ← current
  match t.kind with
  | .punct .star => exportEverything d start
  | .punct .lbrace => exportNames d start
  | .word _ (some .defaultWord) =>
    discard move
    exportDefault d s start
  | .word _ (some .varWord) | .word _ (some .letWord) | .word _ (some .constWord) =>
    finish start .exportNamed [← variableStatement d s]
  | .word _ (some .functionWord) =>
    finish start .exportNamed [← functionDeclaration d s false]
  | .word _ (some .classWord) =>
    finish start .exportNamed [← classDefinition d s false]
  | .word _ (some .asyncWord) =>
    if continuesAsync (← ahead) then
      finish start .exportNamed [← functionDeclaration d s false]
    else refuse
  | _ => refuse

end AmdUnwrap.Grammar
