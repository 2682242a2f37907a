import AmdUnwrap.CommandLine.Arguments
import AmdUnwrap.CommandLine.Directory
import AmdUnwrap.Report.Diagnostic
import AmdUnwrap.Report.Log

namespace AmdUnwrap.CommandLine

/-- What a run does once it has its input. -/
structure Response where
  code : Nat
  stdout : Text
  stderr : Text
  log : List Json
  file : Option (Text × Text)

def inputName (i : Invocation) : Text := i.input.getD "<stdin>".toList

def failure (i : Invocation) (name : Text) (d : Diagnostic) (log : List Json) : Response :=
  if i.json then ⟨1, Report.failure i.options.mode d, [], log, none⟩
  else ⟨1, [], d.line name, log, none⟩

def inputMessage (i : Invocation) : InputError → Text
  | .opening error => "failed to open ".toList ++ inputName i ++ ": ".toList ++ error.message
  | .reading error => "failed to read input: ".toList ++ error.message

def faultMessage (fault : Utf8.Fault) : Text :=
  "input is not valid UTF-8: ".toList ++
    match fault.extent with
    | some extent =>
      "invalid utf-8 sequence of ".toList ++ decimal extent ++ " bytes from index ".toList ++
        decimal fault.index
    | none => "incomplete utf-8 byte sequence from index ".toList ++ decimal fault.index

/-- Hands out a converted text. A JSON report goes to standard output, whatever else was asked. -/
def success (i : Invocation) (output : Text) (log : List Json) : Response :=
  if i.json then ⟨0, Report.success i.options.mode output, [], log, none⟩
  else match i.output with
    | some path => ⟨0, [], [], log, some (path, output)⟩
    | none => ⟨0, output, [], log, none⟩

def respondToText (i : Invocation) (text : Text) : Response :=
  let conversion := conversion i.options text
  let log :=
    if i.trace then Log.records i.options.mode text.byteLength conversion.events else []
  match conversion.result with
  | .ok output => success i output log
  | .error error => failure i (inputName i) (.ofError text error) log

def respond (i : Invocation) (input : Except InputError Bytes) : Response :=
  match input with
  | .error error => failure i (inputName i) ⟨inputMessage i error, none⟩ []
  | .ok bytes =>
    match Utf8.decode bytes with
    | .error fault => failure i (inputName i) ⟨faultMessage fault, none⟩ []
    | .ok text => respondToText i text

def unwritten (i : Invocation) (path : Text) (error : SystemError) (log : List Json) : Response :=
  failure i path ⟨"failed to write output: ".toList ++ error.message, none⟩ log

structure Exit (Files : Type := Directory) where
  code : Nat
  stdout : Text
  stderr : Text
  log : List Json
  files : Files

variable {Files : Type}

def Response.exit (r : Response) (files : Files) : Exit Files :=
  ⟨r.code, r.stdout, r.stderr, r.log, files⟩

variable [FileSystem Files]

def input (i : Invocation) (stdin : Bytes) (files : Files) : Except InputError Bytes :=
  match i.input with
  | none => .ok stdin
  | some path => FileSystem.readFile files path

def run (i : Invocation) (stdin : Bytes) (files : Files) : Exit Files :=
  let response := respond i (input i stdin files)
  match response.file with
  | none => response.exit files
  | some (path, content) =>
    match FileSystem.writeFile files path (Utf8.encode content) with
    | .ok after => response.exit after
    | .error error => (unwritten i path error response.log).exit files

end AmdUnwrap.CommandLine
