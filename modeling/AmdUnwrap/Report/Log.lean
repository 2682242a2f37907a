import AmdUnwrap.Convert
import AmdUnwrap.Report.Json

namespace AmdUnwrap

namespace Log

def spanText (span : Span) : Text :=
  "Span \x7b start: ".toList ++ decimal span.start ++ ", end: ".toList ++ decimal span.stop ++
    " \x7d".toList

def bodyText : Amd.ModuleBody → Text
  | .value expression => "Export(".toList ++ spanText expression ++ [')']
  | .statements region directives =>
    let directives := match directives with
      | some span => "Some(".toList ++ spanText span ++ [')']
      | none => "None".toList
    "Statements \x7b region: ".toList ++ spanText region ++ ", directives: ".toList ++ directives ++
      " \x7d".toList

def message (content : String) : Text × Json := ("message".toList, .text content.toList)

def numbered (name : String) (n : Nat) : Text × Json := (name.toList, .number n)

def offset (n : Nat) : Text × Json := numbered "offset" n

def fields : Event → List (Text × Json)
  | .outsideStatementList start =>
    [message "AMD call outside a statement list, leaving as is", offset start]
  | .withoutDependencies start => [message "AMD call without dependency list", offset start]
  | .leftUnresolved list =>
    [message "unresolved dependency list, leaving call as is", offset list.offset,
      ("name".toList, .text list.name)]
  | .leftUnreadable start why =>
    [message "unsupported AMD call, leaving as is", offset start,
      ("reason".toList, .text why.message)]
  | .leftWithFactory start => [message "unsupported AMD factory, leaving as is", offset start]
  | .converted start dependencies body =>
    [message "converted AMD module", offset start, numbered "dependencies" dependencies,
      ("body".toList, .text (bodyText body))]

def modeName : Mode → Text
  | .global => "Global".toList
  | .module => "Module".toList

def record (mode : Mode) (length : Nat) (fields : List (Text × Json)) : Json :=
  .object
    [("level".toList, .text "DEBUG".toList), ("fields".toList, .object fields),
      ("span".toList, .object
        [("len".toList, .number length), ("mode".toList, .text (modeName mode)),
          ("name".toList, .text "convert".toList)])]

def records (mode : Mode) (length : Nat) (events : List Event) : List Json :=
  (events.map fields ++ [[message "close"]]).map (record mode length)

end Log
end AmdUnwrap
