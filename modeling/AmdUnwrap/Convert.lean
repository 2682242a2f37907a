import AmdUnwrap.Syntax.Parse
import AmdUnwrap.Unwrap

namespace AmdUnwrap
open Amd

structure Options where
  mode : Mode := .global
  policy : Policy := .abort
  deriving DecidableEq, Repr, Inhabited

inductive ConversionError where
  | malformed (error : SyntaxError)
  | unresolved (list : Unresolved)
  deriving DecidableEq, Repr

namespace ConversionError

def message : ConversionError → Text
  | malformed error => error.cause.message.toList
  | unresolved list => (Unreadable.unresolved list.name list.offset).message

def offset : ConversionError → Option Nat
  | malformed error => error.offset
  | unresolved list => some list.offset

end ConversionError

structure Conversion where
  events : List Event
  result : Except ConversionError Text

def unwrapProgram (policy : Policy) (text : Text) (root : Node) : Conversion :=
  let source := Source.ofProgram text root
  let job : Job := ⟨root, source, policy⟩
  let findings := job.search .top root
  match findings.failure with
  | some list => ⟨findings.events, .error (.unresolved list)⟩
  | none => ⟨findings.events, .ok (source.render ⟨0, text.byteLength⟩ findings.edits 0)⟩

def conversion (options : Options) (text : Text) : Conversion :=
  match readProgram options.mode text with
  | .error error => ⟨[], .error (.malformed error)⟩
  | .ok root => unwrapProgram options.policy text root

def convert (options : Options) (text : Text) : Except ConversionError Text :=
  (conversion options text).result

/-- Adds the converted text to what a buffer holds; a failure adds nothing. -/
def convertOnto (buffer : Text) (options : Options) (text : Text) :
    Text × Option ConversionError :=
  match convert options text with
  | .ok output => (buffer ++ output, none)
  | .error error => (buffer, some error)

def session (buffer : Text) : List (Options × Text) → List (Text × Option ConversionError)
  | [] => []
  | (options, text) :: rest =>
    let after := convertOnto buffer options text
    after :: session after.1 rest

/-- Converts a text, then its output, and so on; a pass that fails is passed over. -/
def passes (text : Text) : List Options → List (Except ConversionError Text)
  | [] => []
  | options :: rest =>
    match convert options text with
    | .ok output => .ok output :: passes output rest
    | .error error => .error error :: passes text rest

end AmdUnwrap
