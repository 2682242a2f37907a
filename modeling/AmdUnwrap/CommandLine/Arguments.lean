import AmdUnwrap.Convert

namespace AmdUnwrap.CommandLine

structure Invocation where
  input : Option Text
  output : Option Text
  options : Options
  trace : Bool
  json : Bool
  deriving DecidableEq, Repr

inductive Request where
  | run (invocation : Invocation)
  | help
  | refused
  deriving DecidableEq, Repr

structure Given where
  input : Option Text := none
  output : Option Text := none
  mode : Option Mode := none
  policy : Option Policy := none
  trace : Bool := false
  json : Bool := false

inductive Parameter where
  | input
  | output
  | mode
  | onUnresolved
  deriving DecidableEq, Repr

inductive Switch where
  | trace
  | json
  | help
  deriving DecidableEq, Repr

def longNames : List (Text × (Parameter ⊕ Switch)) :=
  [("input".toList, .inl .input), ("output".toList, .inl .output), ("mode".toList, .inl .mode),
    ("on-unresolved".toList, .inl .onUnresolved), ("trace".toList, .inr .trace),
    ("json".toList, .inr .json), ("help".toList, .inr .help)]

def shortNames : List (Char × (Parameter ⊕ Switch)) :=
  [('i', .inl .input), ('o', .inl .output), ('m', .inl .mode), ('h', .inr .help)]

def modes : List (Text × Mode) := [("global".toList, .global), ("module".toList, .module)]

def policies : List (Text × Policy) := [("abort".toList, .abort), ("skip".toList, .skip)]

/-- Gives a parameter its value, which happens only once. -/
def Given.set (g : Given) (parameter : Parameter) (value : Text) : Option Given :=
  match parameter with
  | .input =>
    if g.input.isSome || value.isEmpty then none else some { g with input := some value }
  | .output =>
    if g.output.isSome || value.isEmpty then none else some { g with output := some value }
  | .mode =>
    if g.mode.isSome then none
    else (modes.lookup value).map fun mode => { g with mode := some mode }
  | .onUnresolved =>
    if g.policy.isSome then none
    else (policies.lookup value).map fun policy => { g with policy := some policy }

def Given.invocation (g : Given) : Invocation :=
  ⟨g.input, g.output, ⟨g.mode.getD .global, g.policy.getD .abort⟩, g.trace, g.json⟩

inductive Argument where
  | parameter (parameter : Parameter) (value : Option Text)
  | switch (switch : Switch)
  | separator
  | unknown
  deriving DecidableEq, Repr

def afterEquals (text : Text) : Option Text :=
  match text with
  | '=' :: value => some value
  | _ => none

def longArgument (text : Text) : Argument :=
  let value := afterEquals (text.dropWhile (· ≠ '='))
  match longNames.lookup (text.takeWhile (· ≠ '=')), value with
  | some (.inl parameter), value => .parameter parameter value
  | some (.inr switch), none => .switch switch
  | _, _ => .unknown

def shortArgument (name : Char) (text : Text) : Argument :=
  match shortNames.lookup name with
  | some (.inl parameter) =>
    if text.isEmpty then .parameter parameter none
    else .parameter parameter (some ((afterEquals text).getD text))
  | some (.inr switch) => .switch switch
  | none => .unknown

def argument (text : Text) : Argument :=
  match text with
  | ['-', '-'] => .separator
  | '-' :: '-' :: name => longArgument name
  | '-' :: name :: rest => shortArgument name rest
  | _ => .unknown

/-- An argument that starts with a hyphen is no value, unless it is the hyphen alone. -/
def isValue (text : Text) : Bool :=
  match text with
  | '-' :: _ :: _ => false
  | _ => true

/-- Reads the arguments in order; the first fault or call for help decides. -/
def read (g : Given) : List Text → Request
  | [] => .run g.invocation
  | text :: rest =>
    match argument text with
    | .unknown => .refused
    | .separator => if rest.isEmpty then .run g.invocation else .refused
    | .switch .help => .help
    | .switch .trace => if g.trace then .refused else read { g with trace := true } rest
    | .switch .json => if g.json then .refused else read { g with json := true } rest
    | .parameter parameter (some value) =>
      match g.set parameter value with
      | some g => read g rest
      | none => .refused
    | .parameter parameter none =>
      match rest with
      | [] => .refused
      | value :: rest =>
        if isValue value then
          match g.set parameter value with
          | some g => read g rest
          | none => .refused
        else .refused

def request (arguments : List Text) : Request := read {} arguments

end AmdUnwrap.CommandLine
