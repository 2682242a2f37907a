import AmdUnwrap.Convert
import AmdUnwrap.Report.Json
import AmdUnwrap.Text.Line

namespace AmdUnwrap

/-- Why a run failed, and where in its input if that is known. -/
structure Diagnostic where
  message : Text
  place : Option LineColumn
  deriving DecidableEq, Repr

namespace Diagnostic

def ofError (text : Text) (error : ConversionError) : Diagnostic :=
  ⟨error.message, error.offset.map text.lineColumn⟩

def line (name : Text) (d : Diagnostic) : Text :=
  let place := match d.place with
    | some place => [':'] ++ decimal place.line ++ [':'] ++ decimal place.column
    | none => []
  name ++ place ++ ": error: ".toList ++ d.message ++ ['\n']

def json (d : Diagnostic) : Json :=
  let place := match d.place with
    | some place =>
      [("line".toList, .number place.line), ("column".toList, .number place.column)]
    | none => []
  .object (("message".toList, .text d.message) :: place)

end Diagnostic

namespace Report

def modeName : Mode → Text
  | .global => "global".toList
  | .module => "module".toList

def document (mode : Mode) (content : Text × Json) : Text :=
  Json.pretty 0 (.object
    [("schema_version".toList, .number 1), ("mode".toList, .text (modeName mode)), content]) ++
    ['\n']

def success (mode : Mode) (output : Text) : Text :=
  document mode ("output".toList, .text output)

def failure (mode : Mode) (d : Diagnostic) : Text :=
  document mode ("diagnostics".toList, .array [d.json])

end Report
end AmdUnwrap
