import AmdUnwrap.Syntax.Node

namespace AmdUnwrap.Amd

def defineName : Text := ['d', 'e', 'f', 'i', 'n', 'e']

def requireName : Text := ['r', 'e', 'q', 'u', 'i', 'r', 'e']

def isLoneString : List Node → Bool
  | [.mk (.string _) _ _] => true
  | _ => false

/-- A call of `define`, or of `require` other than with a lone string, by its bare name. -/
def isAmd : Node → Bool
  | .mk .call _ (.mk (.identifier name) _ _ :: arguments) =>
    name == defineName || name == requireName && !isLoneString arguments
  | _ => false

def arguments : Node → List Node
  | .mk .call _ (_ :: arguments) => arguments
  | _ => []

def calls (root : Node) : List Node :=
  root.preorder.filter fun n => match n.kind with
    | .call => true
    | _ => false

inductive ModuleBody where
  | statements (region : Span) (directives : Option Span)
  | value (expression : Span)
  deriving DecidableEq, Repr

def isDirective (n : Node) : Bool :=
  match n.kind with
  | .directive => true
  | _ => false

def directiveSpan (body : List Node) : Option Span :=
  let directives := body.takeWhile isDirective
  match directives.head?, directives.getLast? with
  | some first, some last => some ⟨first.span.start, last.span.stop⟩
  | _, _ => none

def interior (block : Span) : Span :=
  ⟨block.start + 1, max (block.stop - 1) (block.start + 1)⟩

def bracedBody? : Node → Option ModuleBody
  | .mk .functionBody span body => some (.statements (interior span) (directiveSpan body))
  | _ => none

def conciseValue : Node → Option ModuleBody
  | .mk .functionBody _ [.mk .expressionStatement _ [value]] =>
    some (.value value.unparenthesized.span)
  | _ => none

/-- The body that a factory stands for. Asynchronous functions and generators have none, since
their statements mean something else at the top level. -/
def factoryBody? : Node → Option ModuleBody
  | .mk (.object _) span _ => some (.value span)
  | .mk (.function false false) _ parts => parts.getLast?.bind bracedBody?
  | .mk (.arrow false false) _ parts => parts.getLast?.bind bracedBody?
  | .mk (.arrow false true) _ parts => parts.getLast?.bind conciseValue
  | _ => none

def moduleBody? (call : Node) : Option ModuleBody := (arguments call).getLast?.bind factoryBody?

def requireStatement (specifier : Text) : (pattern : Option Text) → Text
  | some pattern => "var ".toList ++ pattern ++ " = require(".toList ++ specifier ++ ");".toList
  | none => "require(".toList ++ specifier ++ ");".toList

def exportStatement (value : Text) : Text := "module.exports = ".toList ++ value ++ [';']

end AmdUnwrap.Amd
