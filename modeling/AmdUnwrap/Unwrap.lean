import AmdUnwrap.Amd.Dependency
import AmdUnwrap.Splice

/-!
Finding the AMD calls that stand as statements, and the edits that put their modules in their
places. A module inside another is edited into the text that takes the outer one's place.
-/

namespace AmdUnwrap
open Amd

/-- How far up the nearest ancestor with a property is, if it is one of the first `depth`. The
path goes from the parent outwards. -/
def ancestorWithin? {α : Type} (depth : Nat) (p : α → Bool) (path : List α) : Option Nat :=
  (path.take depth).findIdx? p

def ancestorsTried {α : Type} (depth : Nat) (p : α → Bool) (path : List α) : Nat :=
  match ancestorWithin? depth p path with
  | some distance => distance + 1
  | none => (path.take depth).length

theorem ancestorWithin?_isSome {α : Type} (depth : Nat) (p : α → Bool) (path : List α) :
    (ancestorWithin? depth p path).isSome = (path.take depth).any p := by
  unfold ancestorWithin?
  exact List.findIdx?_isSome

/-- What becomes of a call whose dependency list cannot be resolved. -/
inductive Policy where
  | abort
  | skip
  deriving DecidableEq, Repr, Inhabited

structure Unresolved where
  name : Text
  offset : Nat
  deriving DecidableEq, Repr

inductive Event where
  | outsideStatementList (offset : Nat)
  | withoutDependencies (offset : Nat)
  | leftUnresolved (list : Unresolved)
  | leftUnreadable (offset : Nat) (reason : Unreadable)
  | leftWithFactory (offset : Nat)
  | converted (offset dependencies : Nat) (body : ModuleBody)
  deriving DecidableEq, Repr

structure Plan where
  dependencies : List Dependency
  body : ModuleBody
  deriving DecidableEq, Repr

inductive Decision where
  | convert (notes : List Event) (plan : Plan)
  | leave (notes : List Event)
  | fail (list : Unresolved)
  deriving DecidableEq, Repr

def decideBody (call : Node) (notes : List Event) (dependencies : List Dependency) : Decision :=
  match moduleBody? call with
  | some body => .convert notes ⟨dependencies, body⟩
  | none => .leave (notes ++ [.leftWithFactory call.span.start])

/-- Decides about an AMD call that stands as a statement in a list of statements. -/
def decision (root : Node) (policy : Policy) (call : Node) : Decision :=
  match dependencies root call with
  | .ok (some dependencies) => decideBody call [] dependencies
  | .ok none => decideBody call [.withoutDependencies call.span.start] []
  | .error (.unresolved name offset) =>
    match policy with
    | .abort => .fail ⟨name, offset⟩
    | .skip => .leave [.leftUnresolved ⟨name, offset⟩]
  | .error reason => .leave [.leftUnreadable call.span.start reason]

structure Job where
  root : Node
  source : Source
  policy : Policy

structure Position where
  /-- The nodes around, the nearest first. -/
  path : List Node
  /-- The calls being replaced, the nearest first. -/
  converting : List Span
  dedent : Nat

namespace Position

def top : Position := ⟨[], [], 0⟩

def below (p : Position) (n : Node) : Position := { p with path := n :: p.path }

def inside (p : Position) (call : Span) (dedent : Nat) : Position :=
  { p with converting := call :: p.converting, dedent := dedent }

end Position

def holdsStatements (n : Node) : Bool :=
  match n.kind with
  | .program | .functionBody | .block | .switchCase | .staticBlock => true
  | _ => false

def Position.amongStatements (p : Position) : Bool := p.path.head?.any holdsStatements

/-- The function and the call of a factory are this near to the statements of its body. -/
def factoryDepth : Nat := 3

def Position.isReplaced (p : Position) (n : Node) : Bool :=
  isAmd n && p.converting.contains n.span

/-- Whether a `return` here ends the factory of a call that is being replaced. -/
def Position.inFactory (p : Position) : Bool :=
  (ancestorWithin? factoryDepth p.isReplaced p.path).isSome

structure Findings where
  edits : List Edit
  events : List Event
  failure : Option Unresolved
  deriving DecidableEq, Repr

namespace Findings

def none : Findings := ⟨[], [], .none⟩

/-- Once the search has failed it goes no further. -/
def followedBy (first : Findings) (later : Findings) : Findings :=
  match first.failure with
  | some _ => first
  | .none => ⟨first.edits ++ later.edits, first.events ++ later.events, later.failure⟩

def noting (events : List Event) (f : Findings) : Findings :=
  { f with events := events ++ f.events }

end Findings

/-- The part of a factory that moves, trimmed, and how deep it is indented. -/
def Source.movingPart (s : Source) : ModuleBody → Option (Span × Nat)
  | .statements region _ =>
    (s.trim region).map fun content => (content, s.blockIndent region content)
  | .value _ => none

def Source.partedBody (s : Source) (body : ModuleBody) (content : Span) :
    Option Span × Option Span :=
  match body with
  | .statements _ (some directives) =>
    (some ⟨content.start, directives.stop⟩, s.trim ⟨directives.stop, content.stop⟩)
  | _ => (none, some content)

def Source.movedIndent (s : Source) (offset dedent : Nat) : Text :=
  (s.lineIndent offset).stripIndent dedent

/-- How far the statements of a body move left to stand where its call stood. -/
def Source.innerDedent (s : Source) (statement : Span) (body : ModuleBody) (dedent : Nat) : Nat :=
  match s.movingPart body with
  | some (_, indent) => indent - (s.movedIndent statement.start dedent).length
  | none => dedent

def Source.requires (s : Source) (plan : Plan) (edits : List Edit) (dedent : Nat) : List Text :=
  plan.dependencies.map fun dependency =>
    requireStatement (s.render dependency.specifier edits dedent)
      (dependency.parameter.map s.slice)

/-- The statements that replace a call: the directives of its factory, the loading of its
dependencies, and the rest of the factory or the value it stands for. -/
def Source.replacement (s : Source) (plan : Plan) (edits : List Edit) (outer inner : Nat) :
    List Text :=
  let requires := s.requires plan edits outer
  match plan.body, s.movingPart plan.body with
  | .value expression, _ => requires ++ [exportStatement (s.render expression edits outer)]
  | .statements _ _, none => requires
  | .statements _ _, some (content, _) =>
    let (directives, rest) := s.partedBody plan.body content
    (directives.map (s.render · edits inner)).toList ++ requires ++
      (rest.map (s.render · edits inner)).toList

def Source.moduleEdit (s : Source) (statement : Span) (plan : Plan) (edits : List Edit)
    (outer : Nat) : Edit :=
  let inner := s.innerDedent statement plan.body outer
  let separator := (s.lineEnding statement.start).text ++ s.movedIndent statement.start outer
  ⟨statement, separator.intercalate (s.replacement plan edits outer inner)⟩

def Source.returnEdit (s : Source) (statement argument : Span) (dedent : Nat) : Edit :=
  ⟨statement, exportStatement (s.render argument [] dedent)⟩

def Job.replace (job : Job) (statement : Span) (plan : Plan) (notes : List Event) (dedent : Nat)
    (inside : Findings) : Findings where
  edits := [job.source.moduleEdit statement plan inside.edits dedent]
  events := notes ++ inside.events ++
    [.converted statement.start plan.dependencies.length plan.body]
  failure := inside.failure

mutual
def Job.search (job : Job) (p : Position) : Node → Findings
  | .mk .expressionStatement span [call] =>
    let below := p.below (.mk .expressionStatement span [call])
    if isAmd call then
      if p.amongStatements then
        match decision job.root job.policy call with
        | .convert notes plan =>
          let dedent := job.source.innerDedent span plan.body p.dedent
          job.replace span plan notes p.dedent
            (job.searchAll (below.inside call.span dedent) [call])
        | .leave notes => (job.searchAll below [call]).noting notes
        | .fail list => ⟨[], [], some list⟩
      else (job.searchAll below [call]).noting [.outsideStatementList call.span.start]
    else job.searchAll below [call]
  | .mk .returnStatement span [argument] =>
    if p.inFactory then ⟨[job.source.returnEdit span argument.span p.dedent], [], none⟩
    else job.searchAll (p.below (.mk .returnStatement span [argument])) [argument]
  | .mk kind span children => job.searchAll (p.below (.mk kind span children)) children

def Job.searchAll (job : Job) (p : Position) : List Node → Findings
  | [] => .none
  | n :: rest => (job.search p n).followedBy (job.searchAll p rest)
end

end AmdUnwrap
