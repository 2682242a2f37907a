import AmdUnwrap.CommandLine.Run
import AmdUnwrap.Proofs.CommandLine.Arguments
import AmdUnwrap.Proofs.CommandLine.Directory
import AmdUnwrap.Proofs.Frame

/-!
A run does all that it was asked for or nothing: it fails without a trace in the files, or leaves
the converted text where it was asked to and every other file as it was.
-/

namespace AmdUnwrap.CommandLine
open FileSystem LawfulFileSystem

variable {Files : Type} [FileSystem Files]

/-- The input of a run is there, is UTF-8, and is converted to this text. -/
def Yields (i : Invocation) (stdin : Bytes) (files : Files) (output : Text) : Prop :=
  ∃ bytes text, input i stdin files = .ok bytes ∧ Utf8.decode bytes = .ok text ∧
    convert i.options text = .ok output

/-- The arguments send the converted text to a file. -/
def Writes (arguments : List Text) (path : Text) : Prop :=
  Gives arguments .output path ∧ jsonSwitch ∉ arguments

structure Response.Fails (i : Invocation) (r : Response) : Prop where
  code : r.code = 1
  quiet : i.json = false → r.stdout = []
  file : r.file = none

theorem failure_fails (i : Invocation) (name : Text) (d : Diagnostic) (log : List Json) :
    (failure i name d log).Fails i := by
  unfold failure
  split
  next json => exact ⟨rfl, by simp [json], rfl⟩
  next => exact ⟨rfl, fun _ => rfl, rfl⟩

theorem success_code (i : Invocation) (output : Text) (log : List Json) :
    (success i output log).code = 0 := by
  unfold success
  split
  · rfl
  · split <;> rfl

theorem success_file (i : Invocation) (output : Text) (log : List Json) (path content : Text) :
    (success i output log).file = some (path, content) ↔
      i.json = false ∧ i.output = some path ∧ content = output := by
  unfold success
  cases i.json with
  | true => simp
  | false => cases i.output <;> simp [eq_comm]

theorem respond_cases (i : Invocation) (stdin : Bytes) (files : Files) :
    (∃ output log, Yields i stdin files output ∧
      respond i (input i stdin files) = success i output log) ∨
    (∀ output, ¬ Yields i stdin files output) ∧ (respond i (input i stdin files)).Fails i := by
  unfold Yields
  generalize input i stdin files = given
  cases given with
  | error error =>
      right
      constructor
      · rintro output ⟨bytes, text, read, -⟩
        cases read
      · exact failure_fails ..
  | ok bytes =>
      rw [respond]
      cases decoded : Utf8.decode bytes with
      | error fault =>
          right
          constructor
          · rintro output ⟨_, text, read, valid, -⟩
            cases read
            cases decoded.symm.trans valid
          · exact failure_fails ..
      | ok text =>
          dsimp only
          rw [respondToText]
          cases result : (conversion i.options text).result with
          | error error =>
              right
              constructor
              · rintro output ⟨_, _, read, valid, converted⟩
                cases read
                cases decoded.symm.trans valid
                cases result.symm.trans converted
              · exact failure_fails ..
          | ok output =>
              left
              exact ⟨output, _, ⟨bytes, text, rfl, decoded, result⟩, rfl⟩

section

variable {i : Invocation} {stdin : Bytes} {files after : Files} {r : Response}
  {path content : Text} {error : SystemError}

theorem run_without_file (responds : respond i (input i stdin files) = r)
    (file : r.file = none) : run i stdin files = r.exit files := by
  rw [run, responds, file]

theorem run_written (responds : respond i (input i stdin files) = r)
    (file : r.file = some (path, content))
    (written : writeFile files path (Utf8.encode content) = .ok after) :
    run i stdin files = r.exit after := by
  rw [run, responds]
  simp only [file, written]

theorem run_unwritten (responds : respond i (input i stdin files) = r)
    (file : r.file = some (path, content))
    (refused : writeFile files path (Utf8.encode content) = .error error) :
    run i stdin files = (unwritten i path error r.log).exit files := by
  rw [run, responds]
  simp only [file, refused]

end

/-- The ways in which a run ends. -/
inductive Ends (i : Invocation) (stdin : Bytes) (files : Files) : Exit Files → Prop where
  | printed {output : Text} {r : Response} : Yields i stdin files output → r.code = 0 →
      (∀ path, ¬ (i.json = false ∧ i.output = some path)) → Ends i stdin files (r.exit files)
  | written {output path : Text} {r : Response} {after : Files} :
      Yields i stdin files output → r.code = 0 → i.json = false → i.output = some path →
      writeFile files path (Utf8.encode output) = .ok after → Ends i stdin files (r.exit after)
  | refused {output path : Text} {r : Response} {error : SystemError} :
      Yields i stdin files output → r.Fails i → i.json = false → i.output = some path →
      writeFile files path (Utf8.encode output) = .error error → Ends i stdin files (r.exit files)
  | failed {r : Response} : (∀ output, ¬ Yields i stdin files output) → r.Fails i →
      Ends i stdin files (r.exit files)

theorem run_ends (i : Invocation) (stdin : Bytes) (files : Files) :
    Ends i stdin files (run i stdin files) := by
  rcases respond_cases i stdin files with ⟨output, log, yields, responds⟩ | ⟨nothing, fails⟩
  · have succeeds : (success i output log).code = 0 := success_code ..
    cases file : (success i output log).file with
    | none =>
        rw [run_without_file responds file]
        apply Ends.printed yields succeeds
        rintro path ⟨json, named⟩
        have target := (success_file i output log path output).mpr ⟨json, named, rfl⟩
        cases file.symm.trans target
    | some target =>
        obtain ⟨path, content⟩ := target
        obtain ⟨json, named, rfl⟩ := (success_file ..).mp file
        cases written : writeFile files path (Utf8.encode content) with
        | error error =>
            rw [run_unwritten responds file written]
            exact .refused yields (failure_fails ..) json named written
        | ok after =>
            rw [run_written responds file written]
            exact .written yields succeeds json named written
  · rw [run_without_file rfl fails.file]
    exact .failed nothing fails

theorem Yields.unique {i : Invocation} {stdin : Bytes} {files : Files} {first second : Text}
    (yields : Yields i stdin files first) (again : Yields i stdin files second) :
    first = second := by
  obtain ⟨bytes, text, read, decoded, converted⟩ := yields
  obtain ⟨bytes', text', read', decoded', converted'⟩ := again
  cases read.symm.trans read'
  cases decoded.symm.trans decoded'
  cases converted.symm.trans converted'
  rfl

theorem writes_iff {arguments : List Text} {i : Invocation}
    (accepted : request arguments = .run i) (path : Text) :
    Writes arguments path ↔ i.json = false ∧ i.output = some path := by
  have follows := read_follows accepted
  have output := follows.output path
  have json := follows.json
  rw [Writes, ← Bool.not_eq_true, json, output]
  simp [and_comm]

/-- A run succeeds, and then the file that its arguments name holds the converted text while all
others are as they were; or it fails, and every file is as it was. It fails if there is no text to
convert, or one that is not converted, or if the output cannot be created. -/
theorem run_all_or_nothing [LawfulFileSystem Files] {arguments : List Text} {i : Invocation}
    (accepted : request arguments = .run i) (stdin : Bytes) (files : Files) :
    let exit := run i stdin files
    (exit.code = 0 ∧ ∃ output, Yields i stdin files output ∧
      ((∀ path, ¬ Writes arguments path) → exit.files = files) ∧
      ∀ path, Writes arguments path →
        writeFile files path (Utf8.encode output) = .ok exit.files ∧
        content? exit.files path = some (Utf8.encode output) ∧
        (∀ bytes, readFile exit.files path = .ok bytes → bytes = Utf8.encode output) ∧
        ∀ other, ¬ SameFile files other path →
          content? exit.files other = content? files other) ∨
    (exit.code = 1 ∧ exit.files = files ∧ (jsonSwitch ∉ arguments → exit.stdout = []) ∧
      ∀ output, Yields i stdin files output → ∃ path error, Writes arguments path ∧
        writeFile files path (Utf8.encode output) = .error error) := by
  intro exit
  have writes := writes_iff accepted
  have quiet {r : Response} (fails : r.Fails i) : jsonSwitch ∉ arguments → r.stdout = [] := by
    intro absent
    apply fails.quiet
    rw [← Bool.not_eq_true, (read_follows accepted).json]
    simpa using absent
  have ends : Ends i stdin files exit := run_ends i stdin files
  clear_value exit
  cases ends with
  | printed yields succeeds unasked =>
      left
      refine ⟨succeeds, _, yields, fun _ => rfl, fun path asked => ?_⟩
      exact absurd ((writes path).mp asked) (unasked path)
  | @written _ path _ _ yields succeeds json named written =>
      left
      refine ⟨succeeds, _, yields, fun none => ?_, fun other asked => ?_⟩
      · exact absurd ((writes path).mpr ⟨json, named⟩) (none path)
      · obtain rfl : other = path :=
          Option.some.inj (((writes other).mp asked).2.symm.trans named)
        exact ⟨written, content_written written, fun _ => readFile_written written,
          fun _ => content_other written⟩
  | refused yields fails json named refused =>
      right
      refine ⟨fails.code, rfl, quiet fails, fun output again => ?_⟩
      rw [again.unique yields]
      exact ⟨_, _, (writes _).mpr ⟨json, named⟩, refused⟩
  | failed nothing fails =>
      right
      exact ⟨fails.code, rfl, quiet fails, fun output yields => absurd yields (nothing output)⟩

theorem run_overwrites_input :
    let arguments := ["-i".toList, "a.js".toList, "--output=./a.js".toList]
    let files : Directory :=
      [⟨"a.js".toList, Utf8.encode "define({ a: 1 });".toList⟩, ⟨"b.js".toList, [0x62]⟩]
    ∃ i, request arguments = .run i ∧ (run i [] files).code = 0 ∧
      (run i [] files).files.readFile "./a.js".toList =
        .ok (Utf8.encode "module.exports = { a: 1 };".toList) ∧
      (run i [] files).files.find? "b.js".toList = some ⟨"b.js".toList, [0x62]⟩ := by
  intro arguments files
  let i : Invocation :=
    ⟨some "a.js".toList, some "./a.js".toList, {}, false, false⟩
  have accepted : request arguments = .run i := by decide
  have code : (run i [] files).code = 0 := by decide +kernel
  have yields : Yields i [] files "module.exports = { a: 1 };".toList :=
    ⟨Utf8.encode "define({ a: 1 });".toList, "define({ a: 1 });".toList, by decide +kernel,
      ok_of_toOption (by decide +kernel), ok_of_toOption (by decide +kernel)⟩
  have writes : Writes arguments "./a.js".toList :=
    (writes_iff accepted _).mpr ⟨rfl, rfl⟩
  rcases run_all_or_nothing accepted [] files with ⟨-, output, again, -, written⟩ | ⟨failed, -⟩
  · obtain ⟨stored, -⟩ := written _ writes
    rw [again.unique yields] at stored
    have other : (run i [] files).files.find? "b.js".toList = files.find? "b.js".toList :=
      Directory.find?_written stored (by decide)
    exact ⟨i, accepted, code, Directory.readFile_written stored, other.trans (by decide)⟩
  · rw [code] at failed
    cases failed

end AmdUnwrap.CommandLine
