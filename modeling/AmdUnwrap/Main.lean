import AmdUnwrap.CommandLine.Run

/-! The command line program: arguments, files and streams. -/

namespace AmdUnwrap.Main
open CommandLine

def usage : String :=
  "Unwraps AMD modules into CommonJS

Usage: amd-unwrap [OPTIONS]

Options:
  -i, --input <FILE>          The file to convert, or standard input
  -o, --output <FILE>         Where the result goes, or standard output
  -m, --mode <MODE>           global (the default) or module
      --on-unresolved <WHAT>  abort (the default) or skip
      --trace                 Log the conversion on standard error
      --json                  Report in JSON on standard output
  -h, --help                  Show this help
"

def refusal : String :=
  "error: invalid arguments

Usage: amd-unwrap [OPTIONS]

For more information, try --help."

def systemError (error : IO.Error) : SystemError :=
  match error with
  | .noFileOrDirectory .. => .notFound
  | .inappropriateType .. => .isDirectory
  | .permissionDenied .. => .other "Permission denied (os error 13)".toList
  | _ => .other (toString error).toList

partial def readAll (stream : IO.FS.Stream) (read : ByteArray) : IO ByteArray := do
  let bytes ← stream.read 65536
  if bytes.isEmpty then return read else readAll stream (read ++ bytes)

def readStdin : IO (Except InputError Bytes) := do
  try
    return .ok (← readAll (← IO.getStdin) ByteArray.empty).toList
  catch error => return .error (.reading (systemError error))

def readHandle (handle : IO.FS.Handle) : IO (Except InputError Bytes) := do
  try
    return .ok (← handle.readBinToEnd).toList
  catch error => return .error (.reading (systemError error))

def readFile (path : Text) : IO (Except InputError Bytes) := do
  try
    readHandle (← IO.FS.Handle.mk (String.ofList path) .read)
  catch error => return .error (.opening (systemError error))

def writeBytes (stream : IO.FS.Stream) (text : Text) : IO Unit := do
  stream.write (Utf8.encode text).toByteArray
  stream.flush

def emit (r : Response) : IO UInt32 := do
  let stderr ← IO.getStderr
  for record in r.log do
    writeBytes stderr (record.compact ++ ['\n'])
  writeBytes stderr r.stderr
  writeBytes (← IO.getStdout) r.stdout
  return r.code.toUInt32

def perform (i : Invocation) : IO UInt32 := do
  let response := respond i (← i.input.elim readStdin readFile)
  match response.file with
  | none => emit response
  | some (path, content) =>
    try
      IO.FS.writeBinFile (String.ofList path) (Utf8.encode content).toByteArray
      emit response
    catch error => emit (unwritten i path (systemError error) response.log)

end AmdUnwrap.Main

open AmdUnwrap AmdUnwrap.CommandLine in
def main (arguments : List String) : IO UInt32 := do
  match request (arguments.map String.toList) with
  | .run invocation => AmdUnwrap.Main.perform invocation
  | .help =>
    IO.print AmdUnwrap.Main.usage
    return 0
  | .refused =>
    IO.eprintln AmdUnwrap.Main.refusal
    return 2
