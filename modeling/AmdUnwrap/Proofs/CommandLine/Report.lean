import AmdUnwrap.Proofs.CommandLine.Run
import AmdUnwrap.Proofs.Report.Json

/-!
A run that reports in JSON says what a run without a report says: what comes out of its document is
what the other prints.
-/

namespace AmdUnwrap.CommandLine

theorem set_reporting (g : Given) (parameter : Parameter) (value : Text) :
    ({ g with json := true } : Given).set parameter value =
      (g.set parameter value).map fun given => { given with json := true } := by
  cases parameter with
  | input => rw [Given.set, Given.set]; split <;> rfl
  | output => rw [Given.set, Given.set]; split <;> rfl
  | mode =>
      rw [Given.set, Given.set]
      split
      · rfl
      · rw [Option.map_map]; rfl
  | onUnresolved =>
      rw [Given.set, Given.set]
      split
      · rfl
      · rw [Option.map_map]; rfl

theorem read_asked {g : Given} {arguments : List Text} {i : Invocation}
    (accepted : read g arguments = .run i) (plain : jsonSwitch ∉ arguments) :
    read { g with json := true } arguments = .run { i with json := true } := by
  fun_induction read g arguments with
  | case1 g =>
      cases accepted
      rfl
  | case3 g text rest separator none =>
      cases accepted
      simp only [read, separator, none]
      rfl
  | case7 g text rest trace once ih =>
      simp only [read, trace, once]
      exact ih accepted (List.not_mem_of_not_mem_cons plain)
  | case9 g text rest json _ _ =>
      exact absurd (argument_json.mp json ▸ List.mem_cons_self) plain
  | case10 g text rest parameter value attached given set ih =>
      simp only [read, attached, set_reporting, set]
      exact ih accepted (List.not_mem_of_not_mem_cons plain)
  | case13 g text parameter alone value rest isValue given set ih =>
      simp only [read, alone, isValue, set_reporting, set]
      exact ih accepted
        (List.not_mem_of_not_mem_cons (List.not_mem_of_not_mem_cons plain))
  | _ => cases accepted

/-- Wherever the switch may stand, it asks for a report and for nothing else. -/
theorem read_inserted {g : Given} {front back : List Text} {i j : Invocation}
    (accepted : read g (front ++ back) = .run i)
    (plain : jsonSwitch ∉ back) (reporting : read g (front ++ jsonSwitch :: back) = .run j) :
    j = { i with json := true } := by
  have switch : argument jsonSwitch = .switch .json := argument_json.mpr rfl
  have noValue : isValue jsonSwitch = false := by decide
  fun_induction read g front with
  | case1 g =>
      have asked := read_asked accepted plain
      cases twice : g.json <;> simp only [List.nil_append, read, switch, twice] at reporting
      · cases reporting.symm.trans asked
        rfl
      · cases reporting
  | case3 g text rest separator none =>
      obtain rfl := List.isEmpty_iff.mp none
      simp only [List.cons_append, List.nil_append, read, separator] at reporting
      cases reporting
  | case7 g text rest trace once ih =>
      simp only [List.cons_append, read, trace, once] at accepted reporting
      exact ih accepted reporting
  | case9 g text rest json once ih =>
      simp only [List.cons_append, read, json, once] at accepted reporting
      exact ih accepted reporting
  | case10 g text rest parameter value attached given set ih =>
      simp only [List.cons_append, read, attached, set] at accepted reporting
      exact ih accepted reporting
  | case12 g text parameter alone =>
      -- The switch is no value for the parameter before it.
      simp only [List.cons_append, List.nil_append, read, alone, noValue] at reporting
      cases reporting
  | case13 g text parameter alone value rest isValue given set ih =>
      simp only [List.cons_append, read, alone, isValue, set] at accepted reporting
      exact ih accepted reporting
  | _ => simp_all [read]

def field (name : String) : Json → Option Json
  | .object fields => fields.lookup name.toList
  | _ => none

/-- The line that says what an entry of the report says. An entry has a line and a column, or
neither. -/
def entryLine (name : Text) (entry : Json) : Option Text :=
  match field "message" entry, field "line" entry, field "column" entry with
  | some (.text message), some (.number line), some (.number column) =>
    some (name ++ [':'] ++ decimal line ++ [':'] ++ decimal column ++ ": error: ".toList ++
      message ++ ['\n'])
  | some (.text message), none, none => some (name ++ ": error: ".toList ++ message ++ ['\n'])
  | _, _, _ => none

theorem entryLine_json (name : Text) (d : Diagnostic) :
    entryLine name d.json = some (d.line name) := by
  obtain ⟨message, place⟩ := d
  cases place with
  | none =>
      rw [Diagnostic.line, List.append_nil]
      rfl
  | some place =>
      have line : entryLine name (Diagnostic.json ⟨message, some place⟩) =
          some (name ++ [':'] ++ decimal place.line ++ [':'] ++ decimal place.column ++
            ": error: ".toList ++ message ++ ['\n']) := rfl
      simp only [line, Diagnostic.line, List.append_assoc]

/-- The document says what a run without a report says in its exit code and on its streams. -/
inductive Says (name : Text) (document : Json) : (code : Nat) → (stdout stderr : Text) → Prop where
  | success {output : Text} : field "output" document = some (.text output) →
      field "diagnostics" document = none → Says name document 0 output []
  | failure {entry : Json} {line : Text} : field "output" document = none →
      field "diagnostics" document = some (.array [entry]) → entryLine name entry = some line →
      Says name document 1 [] line

structure SameReport {Files : Type} (name : Text) (plain report : Exit Files) : Prop where
  code : report.code = plain.code
  quiet : report.stderr = []
  log : report.log = plain.log
  decodes : ∃ document, Json.decode report.stdout = some document ∧
    Says name document plain.code plain.stdout plain.stderr

def Agree (name : Text) (plain report : Response) : Prop :=
  plain.file = none ∧ report.file = none ∧
    ∀ {Files : Type} (files : Files), SameReport name (plain.exit files) (report.exit files)

section

variable {i : Invocation}

theorem failure_agree (plain : i.json = false) (name : Text) (d : Diagnostic) (log : List Json) :
    Agree name (failure i name d log) (failure { i with json := true } name d log) := by
  have said : failure i name d log = ⟨1, [], d.line name, log, none⟩ := by
    rw [failure, plain, if_neg Bool.false_ne_true]
  have reported : failure { i with json := true } name d log =
      ⟨1, Report.failure i.options.mode d, [], log, none⟩ := if_pos rfl
  rw [said, reported]
  refine ⟨rfl, rfl, fun files => ⟨rfl, rfl, rfl, _, Json.decode_pretty _, ?_⟩⟩
  exact .failure rfl rfl (entryLine_json name d)

theorem success_agree (plain : i.json = false) (printed : i.output = none) (name output : Text)
    (log : List Json) :
    Agree name (success i output log) (success { i with json := true } output log) := by
  have said : success i output log = ⟨0, output, [], log, none⟩ := by
    rw [success, plain, if_neg Bool.false_ne_true, printed]
  have reported : success { i with json := true } output log =
      ⟨0, Report.success i.options.mode output, [], log, none⟩ := if_pos rfl
  rw [said, reported]
  exact ⟨rfl, rfl, fun files => ⟨rfl, rfl, rfl, _, Json.decode_pretty _, .success rfl rfl⟩⟩

theorem respond_agree (plain : i.json = false) (printed : i.output = none)
    (input : Except InputError Bytes) :
    Agree (inputName i) (respond i input) (respond { i with json := true } input) := by
  cases input with
  | error error => exact failure_agree plain ..
  | ok bytes =>
      rw [respond, respond]
      cases Utf8.decode bytes with
      | error fault => exact failure_agree plain ..
      | ok text =>
          dsimp only
          rw [respondToText, respondToText]
          cases result : (conversion i.options text).result with
          | error error => exact failure_agree plain ..
          | ok output => exact success_agree plain printed ..

theorem failure_log (i : Invocation) (name : Text) (d : Diagnostic) (log : List Json) :
    (failure i name d log).log = log := by
  unfold failure
  split <;> rfl

theorem success_log (i : Invocation) (output : Text) (log : List Json) :
    (success i output log).log = log := by
  unfold success
  split
  · rfl
  · split <;> rfl

theorem respond_untraced (untraced : i.trace = false) (input : Except InputError Bytes) :
    (respond i input).log = [] := by
  cases input with
  | error error => exact failure_log ..
  | ok bytes =>
      rw [respond]
      cases Utf8.decode bytes with
      | error fault => exact failure_log ..
      | ok text =>
          dsimp only
          rw [respondToText, untraced]
          cases (conversion i.options text).result with
          | error error => exact failure_log ..
          | ok output => exact success_log ..

end

/-- With a report in JSON, wherever among the arguments it is asked for, a run that writes no file
says what it says without: the document holds the text that goes to standard output, or else the one
line that goes to standard error, from where nothing but the log is missing. -/
theorem reports_agree {Files : Type} [FileSystem Files] {arguments : List Text} {i : Invocation}
    (accepted : request arguments = .run i) (plain : jsonSwitch ∉ arguments)
    (printed : ∀ path, ¬ Gives arguments .output path) (stdin : Bytes) (files : Files) :
    (∃ j, request (jsonSwitch :: arguments) = .run j) ∧
      ∀ front back j, arguments = front ++ back →
        request (front ++ jsonSwitch :: back) = .run j →
        SameReport (inputName i) (run i stdin files) (run j stdin files) ∧
          (i.trace = false → (run i stdin files).log = []) := by
  have follows := read_follows accepted
  have output : i.output = none := by
    rw [Option.eq_none_iff_forall_ne_some]
    intro path named
    rcases (follows.output path).mp named with given | given
    · cases given
    · exact printed path given
  constructor
  · have asked := read_asked accepted plain
    refine ⟨{ i with json := true }, ?_⟩
    rw [request, read, argument_json.mpr rfl]
    exact asked
  · rintro front back j rfl reporting
    have json : i.json = false := by
      rw [← Bool.not_eq_true, follows.json]
      simpa using plain
    rw [List.mem_append, not_or] at plain
    obtain rfl := read_inserted accepted plain.2 reporting
    have same : input { i with json := true } stdin files = input i stdin files := rfl
    obtain ⟨file, file', agree⟩ := respond_agree json output (input i stdin files)
    rw [run_without_file rfl file, run_without_file (congrArg _ same) file']
    exact ⟨agree files, fun untraced => respond_untraced untraced _⟩

theorem reports_agree_unresolved :
    let arguments := ["-i".toList, "a.js".toList]
    let files : Directory :=
      [⟨"a.js".toList, Utf8.encode "define(déps, function () {});".toList⟩]
    ∃ i j, request arguments = .run i ∧ request (arguments ++ [jsonSwitch]) = .run j ∧
      (run i [] files).stderr =
        "a.js:1:8: error: cannot resolve dependency list `déps` to an array literal\n".toList ∧
      SameReport (inputName i) (run i [] files) (run j [] files) := by
  intro arguments files
  let i : Invocation := ⟨some "a.js".toList, none, {}, false, false⟩
  have accepted : request arguments = .run i := by decide
  have reporting : request (arguments ++ [jsonSwitch]) = .run { i with json := true } := by decide
  have line : (run i [] files).stderr =
      "a.js:1:8: error: cannot resolve dependency list `déps` to an array literal\n".toList := by
    decide +kernel
  have printed (path : Text) : ¬ Gives arguments .output path := by
    intro given
    cases ((read_follows accepted).output path).mpr (.inr given)
  have agree := (reports_agree accepted (by decide) printed [] files).2
  exact ⟨i, _, accepted, reporting, line, (agree arguments [] _ (by simp) reporting).1⟩

end AmdUnwrap.CommandLine
