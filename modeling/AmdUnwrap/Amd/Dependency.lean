import AmdUnwrap.Amd.Call

namespace AmdUnwrap.Amd

def declares (name : Text) : Node → Bool
  | .mk .declarator _ (.mk (.binding bound) _ _ :: _) => bound == name
  | _ => false

def declaredArray? : Node → Option Node
  | .mk .declarator _ [_, .mk (.array trailing) span items] =>
    some (.mk (.array trailing) span items)
  | _ => none

/-- The array literal of the first declaration of a name, in whatever scope it stands; a later
declaration does not make up for a first one without an array. -/
def arrayNamed? (root : Node) (name : Text) : Option Node :=
  (root.preorder.find? (declares name)).bind declaredArray?

structure Dependency where
  specifier : Span
  parameter : Option Span
  deriving DecidableEq, Repr

inductive Unreadable where
  | unresolved (name : Text) (offset : Nat)
  | notList
  | spread
  deriving DecidableEq, Repr

def Unreadable.message : Unreadable → Text
  | unresolved name _ =>
    "cannot resolve dependency list `".toList ++ name ++ "` to an array literal".toList
  | notList => "dependency list is neither an array literal nor an identifier".toList
  | spread => "spread element in dependency list".toList

def parameterPatterns : Node → List Span
  | .mk (.function _ _) _ parts | .mk (.arrow _ _) _ parts =>
    parts.flatMap fun
      | .mk .parameters _ items => items.filterMap fun
        | .mk .parameter _ (pattern :: _) => some pattern.span
        | _ => none
      | _ => []
  | _ => []

/-- Pairs elements with parameters by position. A gap takes a position and names nothing. -/
def pair : List Node → List Span → Except Unreadable (List Dependency)
  | [], _ => .ok []
  | element :: elements, parameters =>
    match element.kind with
    | .elision => pair elements parameters.tail
    | .spread => .error .spread
    | _ => (pair elements parameters.tail).map (⟨element.span, parameters.head?⟩ :: ·)

def listElements (root operand : Node) : Except Unreadable (List Node) :=
  match operand with
  | .mk (.array _) _ items => .ok items
  | .mk (.identifier name) span _ =>
    match arrayNamed? root name with
    | some array => .ok array.children
    | none => .error (.unresolved name span.start)
  | _ => .error .notList

/-- The dependencies of a call: there is a list only if the call has two arguments or more. The
first is the list, and the last the factory. -/
def dependencies (root call : Node) : Except Unreadable (Option (List Dependency)) :=
  match arguments call with
  | operand :: other :: more => do
    let elements ← listElements root operand
    let list ← pair elements (parameterPatterns ((other :: more).getLast (by simp)))
    return some list
  | _ => .ok none

end AmdUnwrap.Amd
