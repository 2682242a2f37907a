import AmdUnwrap.Syntax.EarlyError
import AmdUnwrap.Syntax.Grammar.Statement

/-!
Programs read from their text, by the grammar of ECMAScript 2025 with its annex for browsers. What
that grammar lacks is refused: decorators, `using` declarations, `accessor` fields, the phases
`defer` and `source` of an import, markup and types. What it leaves to rules about names is not
checked: scopes, labels, private names, strict mode, and the bodies of regular expressions.
-/

namespace AmdUnwrap
open Reading Grammar

/-- Reads one construct with at most `depth` others nested in each other inside it. -/
def descend : (depth : Nat) → Setting → Goal → Reading Node
  | 0, _, _ => refuse
  | depth + 1, s, goal =>
    let d : Descent := ⟨depth, descend depth⟩
    match goal with
    | .statement alone => statement d s alone
    | .expression => expression d s
    | .assignment => assignment d s
    | .binary floor => binary d s floor
    | .unary => unary d s
    | .leftHand => leftHand d s true
    | .callee => leftHand d s false
    | .pattern => pattern d s

/-- Modules may await at their top level; neither grammar lets a program return. -/
def inProgram (mode : Mode) : Setting := ⟨true, false, mode == .module, false⟩

def programBody (d : Descent) (s : Setting) : Reading (List Node) := do
  let opening ← prologue d s d.bound
  let rest ← statements d s
  match (← current).kind with
  | .eof => return opening ++ rest
  | _ => refuse

/-- No construct nests deeper than this: each character opens at most a handful of others. -/
def depthBound (text : Text) : Nat := 16 * text.length + 64

/-- Offsets have 32 bits. -/
def maxLength : Nat := 4294967295

def readProgram (mode : Mode) (text : Text) : Except SyntaxError Node :=
  if maxLength < text.byteLength then throw ⟨.overlong, none⟩
  else do
    let depth := depthBound text
    let start : Cursor := ⟨mode, Token.first mode text, 0⟩
    let (body, _) ← programBody ⟨depth, descend depth⟩ (inProgram mode) start
    let root := Node.mk .program ⟨0, text.byteLength⟩ body
    match root.earlyError? with
    | some error => throw error
    | none => return root

end AmdUnwrap
