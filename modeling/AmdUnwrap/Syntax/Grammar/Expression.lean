import AmdUnwrap.Syntax.Grammar.Class
import AmdUnwrap.Syntax.Grammar.Literal

namespace AmdUnwrap.Grammar
open Reading

def plain (kind : Node.Kind) : Reading Node := do
  let t ← move
  finish t.start.offset kind []

def parenthesized (d : Descent) (s : Setting) : Reading Node := do
  let start ← here
  expect .lparen
  let inner ← d.read { s with inOperator := true } .expression
  expect .rparen
  finish start .parenthesized [inner]

def regex : Reading Node := do
  reread Token.asRegex
  match (← current).kind with
  | .regex => plain .regex
  | _ => refuse

def primary (d : Descent) (s : Setting) : Reading Node := do
  let t ← current
  match t.kind with
  | .word _ (some .thisWord) => plain .thisExpression
  | .word _ (some .nullWord) | .word _ (some .trueWord) | .word _ (some .falseWord) =>
    plain .literal
  | .word _ (some .functionWord) => functionExpression d s
  | .word _ (some .classWord) => classDefinition d s true
  | .word _ (some .asyncWord) =>
    let next ← ahead
    if next.isWord .functionWord && !next.newline then functionExpression d s else reference s
  | .word _ _ => reference s
  | .number => plain .literal
  | .string _ => stringLiteral
  | .template _ _ => template d s false
  | .punct .lbracket => array d s
  | .punct .lbrace => object d s
  | .punct .lparen => parenthesized d s
  | .punct .slash | .punct .slashAssign => regex
  | _ => refuse

def parent : Reading Node := do
  let node ← plain .superExpression
  match (← current).kind with
  | .punct .dot | .punct .lbracket | .punct .lparen => return node
  | _ => refuse

/-- `import` in an expression: the meta property or the call, which is no callee of `new`. -/
def importExpression (d : Descent) (s : Setting) (calls : Bool) : Reading Node := do
  let start ← here
  expectWord .importWord
  if ← accept .dot then
    expectWord .metaWord
    finish start .metaProperty []
  else
    if !calls then refuse
    expect .lparen
    let source ← d.read { s with inOperator := true } .assignment
    let options ←
      if (← accept .comma) && !(← sees .rparen) then
        let options ← d.read { s with inOperator := true } .assignment
        discard <| accept .comma
        pure [options]
      else pure []
    expect .rparen
    finish start .importCall (source :: options)

def construct (d : Descent) (s : Setting) : Reading Node := do
  let start ← here
  expectWord .newWord
  if ← accept .dot then
    expectWord .targetWord
    finish start .metaProperty []
  else
    let callee ← d.read s .callee
    if ← sees .optional then refuse
    let arguments ← if ← sees .lparen then argumentList d s else pure []
    finish start .construct (callee :: arguments)

def head (d : Descent) (s : Setting) (calls : Bool) : Reading Node := do
  let t ← current
  match t.kind with
  | .word _ (some .newWord) => construct d s
  | .word _ (some .superWord) => parent
  | .word _ (some .importWord) => importExpression d s calls
  | _ => primary d s

def subscript (d : Descent) (s : Setting) (start : Nat) (target : Node) : Reading Node := do
  expect .lbracket
  let key ← d.read { s with inOperator := true } .expression
  expect .rbracket
  finish start .member [target, key]

def optionalLink (d : Descent) (s : Setting) (start : Nat) (target : Node) : Reading Node := do
  let t ← current
  match t.kind with
  | .punct .lparen => finish start .call (target :: (← argumentList d s))
  | .punct .lbracket => subscript d s start target
  | .template _ _ => fail .optionalTemplate t.start.offset
  | _ =>
    let key ← memberName
    finish start .member [target, key]

def link (d : Descent) (s : Setting) (start : Nat) (calls : Bool) :
    Node × Bool → Reading (Option (Node × Bool)) := fun (target, chained) => do
  let t ← current
  match t.kind with
  | .punct .dot =>
    discard move
    let key ← memberName
    return some (← finish start .member [target, key], chained)
  | .punct .lbracket => return some (← subscript d s start target, chained)
  | .punct .optional =>
    if !calls then return none
    discard move
    return some (← optionalLink d s start target, true)
  | .punct .lparen =>
    if !calls then return none
    let arguments ← argumentList d s
    return some (← finish start .call (target :: arguments), chained)
  | .template _ _ =>
    if chained then fail .optionalTemplate t.start.offset
    let quasi ← template d s true
    return some (← finish start .taggedTemplate [target, quasi], chained)
  | _ => return none

def leftHand (d : Descent) (s : Setting) (calls : Bool) : Reading Node := do
  let start ← here
  let base ← head d s calls
  let (target, chained) ← iterate (link d s start calls) d.bound (base, false)
  if chained then finish start .chain [target] else return target

def isUnaryWord : Keyword → Bool
  | .deleteWord | .voidWord | .typeofWord => true
  | _ => false

def postfixed (d : Descent) (s : Setting) : Reading Node := do
  let start ← here
  let target ← leftHand d s true
  let t ← current
  if !t.newline && (t.isPunct .increment || t.isPunct .decrement) then
    discard move
    finish start .update [target]
  else return target

def unary (d : Descent) (s : Setting) : Reading Node := do
  let t ← current
  let start := t.start.offset
  match t.kind with
  | .punct .plus | .punct .minus | .punct .bang | .punct .tilde =>
    discard move
    let operand ← d.read s .unary
    finish start .unary [operand]
  | .punct .increment | .punct .decrement =>
    discard move
    let operand ← d.read s .unary
    finish start .update [operand]
  | .word _ (some keyword) =>
    if isUnaryWord keyword then
      discard move
      let operand ← d.read s .unary
      finish start .unary [operand]
    else if keyword == .awaitWord && s.awaits then
      discard move
      let operand ← d.read s .unary
      finish start .awaitExpression [operand]
    else postfixed d s
  | _ => postfixed d s

def comparison : Nat := 7

def operator? (s : Setting) (t : Token) : Option (Nat × Node.Kind) :=
  match t.kind with
  | .punct sign =>
    sign.strength?.map fun strength =>
      (strength, if sign.isLogical then .logical sign else .binary (some sign))
  | .word _ (some .instanceofWord) => some (comparison, .binary none)
  | .word _ (some .inWord) => if s.inOperator then some (comparison, .binary none) else none
  | _ => none

def rightFloor (strength : Nat) : Node.Kind → Nat
  | .binary (some .power) => strength
  | _ => strength + 1

def binaryStep (d : Descent) (s : Setting) (start floor : Nat) (left : Node) :
    Reading (Option Node) := do
  match operator? s (← current) with
  | none => return none
  | some (strength, kind) =>
    if strength < floor then return none
    discard move
    let right ← d.read s (.binary (rightFloor strength kind))
    return some (← finish start kind [left, right])

def operand (d : Descent) (s : Setting) (floor : Nat) : Reading Node := do
  let t ← current
  match t.kind with
  | .privateName name =>
    if floor ≤ comparison && s.inOperator && (← ahead).isWord .inWord then
      plain (.privateName name)
    else refuse
  | _ => unary d s

def binary (d : Descent) (s : Setting) (floor : Nat) : Reading Node := do
  let start ← here
  let first ← operand d s floor
  iterate (binaryStep d s start floor) d.bound first

def conditional (d : Descent) (s : Setting) : Reading Node := do
  let start ← here
  let test ← binary d s 0
  if ← accept .question then
    let yes ← d.read { s with inOperator := true } .assignment
    expect .colon
    let no ← d.read s .assignment
    finish start .conditional [test, yes, no]
  else return test

def endsYield (t : Token) : Bool :=
  match t.kind with
  | .eof | .punct .semicolon | .punct .rbracket | .punct .rbrace | .punct .rparen
  | .punct .colon | .punct .comma | .word _ (some .inWord) => true
  | _ => t.newline

def yieldExpression (d : Descent) (s : Setting) : Reading Node := do
  let start ← here
  expectWord .yieldWord
  let t ← current
  let delegates ← if t.newline then pure false else accept .star
  if !delegates && endsYield t then finish start .yieldExpression []
  else
    let value ← d.read s .assignment
    finish start .yieldExpression [value]

def assignmentRest (d : Descent) (s : Setting) (start : Nat) (target : Node) : Reading Node := do
  let t ← current
  match t.kind with
  | .punct sign =>
    if sign.isAssignment then
      discard move
      let value ← d.read s .assignment
      finish start (.assignment sign) [target, value]
    else return target
  | _ => return target

def assignment (d : Descent) (s : Setting) : Reading Node := do
  let start ← here
  if s.yields && (← seesWord .yieldWord) then yieldExpression d s
  else match ← arrowFunction? d s with
    | some arrow => return arrow
    | none => assignmentRest d s start (← conditional d s)

def expression (d : Descent) (s : Setting) : Reading Node := do
  let start ← here
  let first ← d.read s .assignment
  let rest ← many (do
    if ← accept .comma then return some (← d.read s .assignment) else return none) d.bound
  if rest.isEmpty then return first else finish start .sequence (first :: rest)

end AmdUnwrap.Grammar
