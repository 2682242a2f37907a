import AmdUnwrap.Syntax.Grammar.Basic

namespace AmdUnwrap.Grammar
open Reading

def withDefault (d : Descent) (s : Setting) (pattern : Reading Node) : Reading Node := do
  let start ← here
  let target ← pattern
  if ← accept .assign then
    let value ← d.read { s with inOperator := true } .assignment
    finish start .defaultedPattern [target, value]
  else return target

def restElement (close : Punct) (pattern : Reading Node) : Reading Node := do
  let start ← here
  expect .ellipsis
  let target ← pattern
  if !(← sees close) then refuse
  finish start .rest [target]

def arrayItem (d : Descent) (s : Setting) : Reading Node := do
  if ← sees .ellipsis then restElement .rbracket (d.read s .pattern)
  else withDefault d s (d.read s .pattern)

def objectItem (d : Descent) (s : Setting) : Reading Node := do
  let start ← here
  if ← sees .ellipsis then return ← restElement .rbrace (bindingName s)
  if (← current).isName && !(← ahead).isPunct .colon then
    let value ← withDefault d s (bindingName s)
    finish start .bindingProperty [value]
  else
    let key ← propertyKey d s
    expect .colon
    let value ← withDefault d s (d.read s .pattern)
    finish start .bindingProperty [key, value]

def pattern (d : Descent) (s : Setting) : Reading Node := do
  let t ← current
  let start := t.start.offset
  match t.kind with
  | .punct .lbracket =>
    discard move
    let (items, _) ← elements (arrayItem d { s with inOperator := true }) d.bound
    finish start .arrayPattern items
  | .punct .lbrace =>
    discard move
    let (items, _) ← separated (objectItem d { s with inOperator := true }) .rbrace d.bound
    finish start .objectPattern items
  | _ => bindingName s

def parameter (d : Descent) (s : Setting) : Reading Node := do
  let start ← here
  if ← accept .ellipsis then
    let target ← d.read s .pattern
    if !(← sees .rparen) then refuse
    finish start .restParameter [target]
  else
    let target ← d.read s .pattern
    if ← accept .assign then
      let value ← d.read s .assignment
      finish start .parameter [target, value]
    else finish start .parameter [target]

def parameterList (d : Descent) (s : Setting) : Reading Node := do
  let start ← here
  expect .lparen
  let (items, _) ← separated (parameter d { s with inOperator := true }) .rparen d.bound
  finish start .parameters items

def loneParameter (s : Setting) : Reading Node := do
  let start ← here
  let name ← bindingName s
  let item ← finish start .parameter [name]
  finish start .parameters [item]

end AmdUnwrap.Grammar
