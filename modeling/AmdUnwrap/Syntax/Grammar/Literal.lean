import AmdUnwrap.Syntax.Grammar.Function

namespace AmdUnwrap.Grammar
open Reading

def templateStretch (tagged : Bool) : Reading Bool := do
  let t ← current
  match t.kind with
  | .template closed wellEscaped =>
    if !wellEscaped && !tagged then fail .invalidEscape t.start.offset
    discard move
    return closed
  | _ => refuse

def templateStep (d : Descent) (s : Setting) (tagged : Bool) :
    List Node × Bool → Reading (Option (List Node × Bool))
  | (_, true) => return none
  | (parts, false) => do
    let part ← d.read { s with inOperator := true } .expression
    if !(← sees .rbrace) then refuse
    reread Token.asTemplate
    let closed ← templateStretch tagged
    return some (parts ++ [part], closed)

def template (d : Descent) (s : Setting) (tagged : Bool) : Reading Node := do
  let start ← here
  let closed ← templateStretch tagged
  let (parts, closed) ← iterate (templateStep d s tagged) d.bound ([], closed)
  if !closed then refuse
  finish start .template parts

def element (d : Descent) (s : Setting) : Reading Node := do
  let start ← here
  if ← accept .ellipsis then
    let value ← d.read { s with inOperator := true } .assignment
    finish start .spread [value]
  else d.read { s with inOperator := true } .assignment

def array (d : Descent) (s : Setting) : Reading Node := do
  let start ← here
  expect .lbracket
  let (items, trailing) ← elements (element d s) d.bound
  finish start (.array trailing) items

def argumentList (d : Descent) (s : Setting) : Reading (List Node) := do
  expect .lparen
  let (items, _) ← separated (element d s) .rparen d.bound
  return items

def methodProperty (d : Descent) (start : Nat) (form : Node.Form) (async generator : Bool)
    (key : Node) : Reading Node := do
  let method ← methodFunction d async generator
  checkAccessor form method
  finish start (.property form) [key, method]

def shorthand (d : Descent) (s : Setting) : Reading Node := do
  let start ← here
  let name ← reference s
  if ← accept .assign then
    let value ← d.read { s with inOperator := true } .assignment
    finish start (.property .defaulted) [name, value]
  else finish start (.property .shorthand) [name]

def keyedProperty (d : Descent) (s : Setting) : Reading Node := do
  let start ← here
  let key ← propertyKey d s
  if ← sees .lparen then methodProperty d start .method false false key
  else
    expect .colon
    let value ← d.read { s with inOperator := true } .assignment
    finish start (.property .value) [key, value]

def accessorProperty (d : Descent) (s : Setting) (form : Node.Form) : Reading Node := do
  let start ← here
  discard move
  let key ← propertyKey d s
  methodProperty d start form false false key

def generatorProperty (d : Descent) (s : Setting) : Reading Node := do
  let start ← here
  let async ← acceptWord .asyncWord
  let generator ← accept .star
  let key ← propertyKey d s
  methodProperty d start .method async generator key

def property (d : Descent) (s : Setting) : Reading Node := do
  let t ← current
  match t.kind with
  | .punct .ellipsis => element d s
  | .punct .star => generatorProperty d s
  | .word _ keyword =>
    let next ← ahead
    if keyword == some .asyncWord && !next.newline && (opensKey next || next.isPunct .star) then
      generatorProperty d s
    else if keyword == some .getWord && opensKey next then accessorProperty d s .getter
    else if keyword == some .setWord && opensKey next then accessorProperty d s .setter
    else if next.isPunct .lparen || next.isPunct .colon then keyedProperty d s
    else shorthand d s
  | _ => keyedProperty d s

def object (d : Descent) (s : Setting) : Reading Node := do
  let start ← here
  expect .lbrace
  let (items, trailing) ← separated (property d s) .rbrace d.bound
  finish start (.object trailing) items

end AmdUnwrap.Grammar
