import AmdUnwrap.Syntax.Error
import AmdUnwrap.Syntax.Node

/-!
What a program may not say though its tokens follow the grammar: each rule looks at a finished
node and what it holds.
-/

namespace AmdUnwrap.Node

def isSimpleTarget : Node → Bool
  | mk (.identifier _) _ _ => true
  | mk .member _ _ => true
  | mk .parenthesized _ [inner] => isSimpleTarget inner
  | _ => false

mutual
/-- What may stand before `=`: a simple target, or a literal read as a pattern. Inside a pattern
the target may carry a default. -/
def isTarget (nested : Bool) : Node → Bool
  | mk (.array trailing) _ items => areTargets trailing items
  | mk (.object trailing) _ items => areTargetProperties trailing items
  | mk (.assignment .assign) _ (target :: _) => nested && isTarget false target
  | n => isSimpleTarget n

def areTargets (trailing : Bool) : List Node → Bool
  | [] => true
  | mk .spread _ [target] :: rest => rest.isEmpty && !trailing && isTarget false target
  | mk .elision _ _ :: rest => areTargets trailing rest
  | n :: rest => isTarget true n && areTargets trailing rest

def areTargetProperties (trailing : Bool) : List Node → Bool
  | [] => true
  | mk .spread _ [target] :: rest => rest.isEmpty && !trailing && isSimpleTarget target
  | mk (.property .value) _ [_, value] :: rest =>
    isTarget true value && areTargetProperties trailing rest
  | mk (.property .shorthand) _ _ :: rest => areTargetProperties trailing rest
  | mk (.property .defaulted) _ _ :: rest => areTargetProperties trailing rest
  | _ => false
end

mutual
def targetObjects : Node → List Span
  | mk (.object _) span items => span :: targetObjectsAll items
  | mk (.array _) _ items => targetObjectsAll items
  | mk (.property .value) _ [_, value] => targetObjects value
  | mk .spread _ [target] => targetObjects target
  | mk (.assignment .assign) _ (target :: _) => targetObjects target
  | _ => []

def targetObjectsAll : List Node → List Span
  | [] => []
  | n :: rest => targetObjects n ++ targetObjectsAll rest
end

def patternObjects : Node → List Span
  | mk (.assignment .assign) _ (target :: _) => targetObjects target
  | mk .forInStatement _ (target :: _) => targetObjects target
  | mk (.forOfStatement _) _ (target :: _) => targetObjects target
  | _ => []

def isDefaultedProperty : Node → Bool
  | mk (.property .defaulted) _ _ => true
  | _ => false

/-- An object literal with a default that no pattern around it accounts for. -/
def strayInitializer? (root : Node) : Option SyntaxError :=
  let nodes := root.preorder
  let holders := nodes.filter fun n => n.children.any isDefaultedProperty
  let known := if holders.isEmpty then [] else nodes.flatMap patternObjects
  (holders.find? fun n => !known.contains n.span).map fun n =>
    ⟨.strayInitializer, some n.span.start⟩

def isDisjunction : Node → Bool
  | mk (.logical .disjunction) _ _ => true
  | _ => false

def isConjunction : Node → Bool
  | mk (.logical .conjunction) _ _ => true
  | _ => false

def isNullish : Node → Bool
  | mk (.logical .nullish) _ _ => true
  | _ => false

def keyName? : Node → Option Text
  | mk (.propertyName name) _ _ => some name
  | mk (.string raw) _ _ => some raw
  | _ => none

def constructorName : Text := ['c', 'o', 'n', 's', 't', 'r', 'u', 'c', 't', 'o', 'r']

def prototypeName : Text := ['p', 'r', 'o', 't', 'o', 't', 'y', 'p', 'e']

def isPrivateConstructor : Node → Bool
  | mk (.privateName name) _ _ => name == constructorName
  | _ => false

def isPlainFunction : Node → Bool
  | mk (.function false false) _ _ => true
  | _ => false

def misnamesMember : Node → Bool
  | mk (.method static form) _ [key, function] =>
    isPrivateConstructor key || static && keyName? key == some prototypeName ||
      !static && keyName? key == some constructorName &&
        !(form == .method && isPlainFunction function)
  | mk (.field static) _ (key :: _) =>
    isPrivateConstructor key || keyName? key == some constructorName ||
      static && keyName? key == some prototypeName
  | _ => false

def brokenRule? (n : Node) : Option SyntaxError.Cause :=
  match n with
  | mk (.assignment .assign) _ (target :: _) =>
    if isTarget false target then none else some .assignmentTarget
  | mk (.assignment _) _ (target :: _) =>
    if isSimpleTarget target then none else some .assignmentTarget
  | mk .update _ [target] => if isSimpleTarget target then none else some .assignmentTarget
  | mk .forInStatement _ (target :: _) | mk (.forOfStatement _) _ (target :: _) =>
    match target.kind with
    | .variableDeclaration _ => none
    | _ => if isTarget false target then none else some .assignmentTarget
  | mk (.binary (some .power)) _ (left :: _) =>
    match left.kind with
    | .unary | .awaitExpression => some .unaryPower
    | _ => none
  | mk (.logical .nullish) _ sides =>
    if sides.any fun side => isDisjunction side || isConjunction side then some .mixedNullish
    else none
  | mk (.logical _) _ sides => if sides.any isNullish then some .mixedNullish else none
  | _ => if misnamesMember n then some .classMember else none

mutual
def boundNames : Node → List Text
  | mk (.binding name) _ _ => [name]
  | mk .arrayPattern _ items => boundNamesAll items
  | mk .objectPattern _ items => boundNamesAll items
  | mk .bindingProperty _ [value] => boundNames value
  | mk .bindingProperty _ [_, value] => boundNames value
  | mk .defaultedPattern _ (target :: _) => boundNames target
  | mk .rest _ [target] => boundNames target
  | mk .declarator _ (target :: _) => boundNames target
  | _ => []

def boundNamesAll : List Node → List Text
  | [] => []
  | n :: rest => boundNames n ++ boundNamesAll rest
end

def defaultName : Text := ['d', 'e', 'f', 'a', 'u', 'l', 't']

def exportedNames : Node → List Text
  | mk .exportDefault _ _ => [defaultName]
  | mk .exportAll _ (name :: mk (.string _) _ _ :: _) => (keyName? name).toList
  | mk .exportSpecifier _ names => (names.getLast?.bind keyName?).toList
  | mk .exportNamed _ [mk (.variableDeclaration _) _ items] => boundNamesAll items
  | mk .exportNamed _ [mk (.function _ _) _ (name :: _)] => boundNames name
  | mk .exportNamed _ [mk .classDefinition _ (name :: _)] => boundNames name
  | _ => []

def duplicateExport? (known : List Text) : List Node → Option SyntaxError
  | [] => none
  | n :: rest =>
    let names := exportedNames n
    if names.any known.contains || !names.Nodup then some ⟨.duplicateExport, some n.span.start⟩
    else duplicateExport? (names ++ known) rest

def earlyError? (root : Node) : Option SyntaxError :=
  let nodes := root.preorder
  let broken := nodes.findSome? fun n => n.brokenRule?.map fun cause => ⟨cause, some n.span.start⟩
  broken <|> strayInitializer? root <|> duplicateExport? [] nodes

end AmdUnwrap.Node
