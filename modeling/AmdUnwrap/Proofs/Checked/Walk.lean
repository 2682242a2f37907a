import AmdUnwrap.Proofs.Checked.Module
import AmdUnwrap.Proofs.Stacks

/-!
The walk and the conversion with all checks. On a text that is shorter than offsets reach, no check
fails: the checked conversion comes to what the conversion does.
-/

namespace AmdUnwrap.Checked
open Amd

/-- The frame on top, at the last index of the stack. -/
def frame (w : Walk) : Option Frame := do
  let last ← sub w.frames.length 1
  w.frames.reverse[last]?

def emit (w : Walk) (edit : Edit) : Option Walk := do
  let _ ← frame w
  return w.emit edit

def callAction (job : Job) (w : Walk) (call : Node) : Option Action :=
  if isAmd call then
    if w.position.amongStatements then
      (decision job.root job.policy call).map fun
        | .convert notes plan => .convert notes plan call.span
        | .leave notes => .descend notes
        | .fail list => .fail list
    else some (.descend [.outsideStatementList call.span.start])
  else some (.descend [])

def action (job : Job) (w : Walk) : Node → Option Action
  | .mk .expressionStatement _ [call] =>
    if w.failure.isSome then some .stop else callAction job w call
  | .mk .returnStatement _ [argument] =>
    some (if w.position.inFactory then .give argument.span else .descend [])
  | _ => some (.descend [])

def give (job : Job) (w : Walk) (statement argument : Span) : Option Walk := do
  let around ← frame w
  let edit ← returnEdit job.source statement argument around.dedent
  emit w edit

def opening (job : Job) (w : Walk) (n : Node) (notes : List Event) (plan : Plan) (call : Span) :
    Option Walk := do
  let around ← frame w
  let dedent ← innerDedent job.source n.span plan.body around.dedent
  return ((w.note notes).begin call dedent).enter n

def closing (job : Job) (statement : Span) (plan : Plan) (dedent : Nat) (inside : Walk) :
    Option Walk := do
  let found ← frame inside
  let edit ← moduleEdit job.source statement plan found.edits dedent
  let w ← emit inside.leave.finish edit
  return w.note [.converted statement.start plan.dependencies.length plan.body]

mutual
def visit (job : Job) (w : Walk) : Node → Option Walk
  | .mk kind span children => do
    match ← action job w (.mk kind span children) with
    | .stop => return w
    | .fail list => return w.fail list
    | .give argument => give job w span argument
    | .convert notes plan call =>
      let around ← frame w
      let inside ← opening job w (.mk kind span children) notes plan call
      let inside ← visitAll job inside children
      closing job span plan around.dedent inside
    | .descend notes =>
      let below ← visitAll job ((w.note notes).enter (.mk kind span children)) children
      return below.leave

def visitAll (job : Job) (w : Walk) : List Node → Option Walk
  | [] => some w
  | n :: rest => do
    let next ← visit job w n
    visitAll job next rest
end

def finish (s : Source) (stop : Nat) (w : Walk) : Option Conversion :=
  match w.failure with
  | some list => some ⟨w.events, .error (.unresolved list)⟩
  | none => do
    let found ← frame w
    let output ← render s ⟨0, stop⟩ found.edits 0
    return ⟨w.events, .ok output⟩

def unwrapProgram (policy : Policy) (text : Text) (root : Node) : Option Conversion := do
  let stop ← narrow text.byteLength
  let job : Job := ⟨root, .ofProgram text root, policy⟩
  let w ← visit job .start root
  finish job.source stop w

def conversion (options : Options) (text : Text) : Option Conversion :=
  match readProgram options.mode text with
  | .error error => some ⟨[], .error (.malformed error)⟩
  | .ok root => unwrapProgram options.policy text root

variable {job : Job} {mode : Mode} {w : Walk} {n : Node}

theorem frame_eq (nonempty : w.frames ≠ []) : frame w = some w.frame := by
  rw [frame, Walk.frame]
  cases frames : w.frames with
  | nil => exact absurd frames nonempty
  | cons first rest =>
      have last : sub (first :: rest).length 1 = some rest.length := sub_eq (Nat.succ_pos _)
      rw [last, Option.bind_eq_bind, Option.bind_some, List.reverse_cons,
        List.getElem?_append_right (by rw [List.length_reverse]), List.length_reverse,
        Nat.sub_self]
      rfl

theorem emit_eq (nonempty : w.frames ≠ []) (edit : Edit) : emit w edit = some (w.emit edit) := by
  rw [emit, frame_eq nonempty]
  rfl

theorem callAction_eq {call : Node}
    (nested : Nested job.source.text call.span.start call.children call.span.stop)
    (short : job.source.text.byteLength < offsetLimit) :
    callAction job w call = some (job.callAction w call) := by
  rw [callAction, Job.callAction]
  by_cases amd : isAmd call = true
  · rw [if_pos amd, if_pos amd, decision_eq amd nested short]
    by_cases among : w.position.amongStatements = true
    · rw [if_pos among, if_pos among]
      cases AmdUnwrap.decision job.root job.policy call <;> rfl
    · rw [if_neg among, if_neg among]
  · rw [if_neg amd, if_neg amd]

theorem action_eq (nested : Nested job.source.text n.span.start n.children n.span.stop)
    (short : job.source.text.byteLength < offsetLimit) :
    action job w n = some (job.action w n) := by
  cases n.treatment with
  | statement span call =>
      rw [action, Job.action, callAction_eq (nested.mem (List.mem_singleton_self call)).2 short]
      split <;> rfl
  | returning span argument => rfl
  | other statement return_ =>
      rw [Job.action_other statement return_]
      unfold action
      split
      · exact absurd rfl (statement _ _)
      · exact absurd rfl (return_ _ _)
      · rfl

theorem give_eq {statement argument : Span} (nonempty : w.frames ≠ [])
    (names : job.source.text.Names argument) (short : job.source.text.byteLength < offsetLimit) :
    give job w statement argument =
      some (w.emit (job.source.returnEdit statement argument w.frame.dedent)) := by
  simp only [give, frame_eq nonempty, returnEdit_eq names short, Option.bind_eq_bind,
    Option.bind_some]
  exact emit_eq nonempty _

section

variable {notes : List Event} {plan : Plan} {call : Span}

theorem action_planned (parsed : readProgram mode job.source.text = .ok job.root)
    (reaches : Node.Reaches job.root w.ancestors n)
    (acts : job.action w n = .convert notes plan call) : Planned job.source plan := by
  obtain ⟨span, c, rfl, -, amd, among, decided⟩ := Job.action_decides acts
  have unwraps : job.Unwraps w.position c plan := ⟨amd, among, notes, decided⟩
  exact planned (reaches.child (List.mem_singleton_self c)) unwraps parsed

theorem opening_eq (nonempty : w.frames ≠ []) (planned : Planned job.source plan)
    (boundary : job.source.text.Boundary n.span.start)
    (short : job.source.text.byteLength < offsetLimit) :
    opening job w n notes plan call = some (job.opening w n notes plan call) := by
  simp only [opening, frame_eq nonempty, innerDedent_eq planned.body boundary short,
    Option.bind_eq_bind, Option.bind_some]
  rfl

theorem closing_eq {inside : Walk} (nonempty : w.frames ≠ [])
    (restores : (job.opening w n notes plan call).Restores inside)
    (planned : Planned job.source plan) (boundary : job.source.text.Boundary n.span.start)
    (apart : Apart job.source.text n.span.start inside.frame.edits n.span.stop)
    (short : job.source.text.byteLength < offsetLimit) :
    closing job n.span plan w.frame.dedent inside =
      some (job.closing n.span plan w.frame.dedent inside) := by
  have found : frame inside = some inside.frame :=
    frame_eq (restores.nonempty (List.cons_ne_nil _ _))
  have outer : w.Restores inside.leave.finish := .trans .note restores.leave.finish
  simp only [closing, found, moduleEdit_eq planned boundary apart short,
    emit_eq (outer.nonempty nonempty), Option.bind_eq_bind, Option.bind_some]
  rfl

end

theorem visitAll_eq {ns : List Node} (nonempty : w.frames ≠ [])
    (each : ∀ n ∈ ns, ∀ w' : Walk, w'.ancestors = w.ancestors → w'.frames ≠ [] →
      visit job w' n = some (job.visit w' n)) :
    visitAll job w ns = some (job.visitAll w ns) := by
  induction ns generalizing w with
  | nil => rfl
  | cons n rest ih =>
      rw [List.forall_mem_cons] at each
      have restores := job.visit_restores w n
      rw [visitAll, each.1 w rfl nonempty, Job.visitAll]
      apply ih (restores.nonempty nonempty)
      intro m member w' same
      exact each.2 m member w' (same.trans restores.ancestors)

theorem visit_eq (parsed : readProgram mode job.source.text = .ok job.root)
    (short : job.source.text.byteLength < offsetLimit)
    (reaches : Node.Reaches job.root w.ancestors n) (nonempty : w.frames ≠ []) :
    visit job w n = some (job.visit w n) := by
  induction n using Node.induction generalizing w with
  | step n ih =>
      have nested := (reaches.placed parsed).2
      have acted := action_eq nested short (w := w)
      -- A visit leaves the nodes around as they were: each child is visited right below its parent.
      have below (inside : Walk) (path : inside.ancestors = n :: w.ancestors)
          (nonempty : inside.frames ≠ []) :
          visitAll job inside n.children = some (job.visitAll inside n.children) := by
        apply visitAll_eq nonempty
        intro m member w' same nonempty
        apply ih m member _ nonempty
        rw [same, path]
        exact reaches.child member
      cases acts : job.action w n with
      | stop | fail list =>
          rw [acts] at acted
          obtain ⟨kind, span, children⟩ := n
          rw [visit, acted, Job.visit, acts]
          rfl
      | give argument =>
          rw [acts] at acted
          obtain ⟨span, c, rfl, rfl⟩ := Job.action_give acts
          have names := (reaches.child (List.mem_singleton_self c)).names parsed
          rw [visit, acted, Job.visit, acts]
          exact give_eq nonempty names short
      | convert notes plan call =>
          rw [acts] at acted
          have parts := action_planned parsed reaches acts
          have boundary := (reaches.names parsed).boundaries.1
          have opened : opening job w n notes plan call = some _ :=
            opening_eq nonempty parts boundary short
          have restores : (job.opening w n notes plan call).Restores
              (job.visitAll (job.opening w n notes plan call) n.children) :=
            Job.visitAll_restores fun m _ w => job.visit_restores w m
          have closed := closing_eq nonempty restores parts boundary (Job.opening_apart nested)
            short
          obtain ⟨kind, span, children⟩ := n
          have inside : visitAll job _ children = some _ :=
            below (job.opening w (.mk kind span children) notes plan call) rfl
              (List.cons_ne_nil _ _)
          rw [visit, acted, Job.visit, acts]
          simp only [frame_eq nonempty, opened, inside, Option.bind_eq_bind, Option.bind_some]
          exact closed
      | descend notes =>
          rw [acts] at acted
          obtain ⟨kind, span, children⟩ := n
          have inside : visitAll job _ children = some _ :=
            below ((w.note notes).enter (.mk kind span children)) rfl nonempty
          rw [visit, acted, Job.visit, acts]
          simp only [inside, Option.bind_eq_bind, Option.bind_some]
          rfl

theorem finish_eq {s : Source} {lo hi : Nat} (nonempty : w.frames ≠ [])
    (apart : Apart s.text lo w.frame.edits hi) (still : w.frame.dedent = 0)
    (short : s.text.byteLength < offsetLimit) :
    finish s s.text.byteLength w = some (w.conversion s) := by
  have whole : s.text.Names ⟨0, s.text.byteLength⟩ :=
    Text.names_of_boundaries s.text.boundary_zero s.text.boundary_byteLength (Nat.zero_le _)
  rw [finish, Walk.conversion, still]
  cases w.failure with
  | some list => rfl
  | none =>
      simp only [frame_eq nonempty, render_eq whole apart short, Option.bind_eq_bind,
        Option.bind_some]
      rfl

theorem unwrapProgram_eq {policy : Policy} {text : Text} {root : Node}
    (parsed : readProgram mode text = .ok root) (short : text.byteLength < offsetLimit) :
    unwrapProgram policy text root = some (AmdUnwrap.unwrapProgram policy text root) := by
  let job : Job := ⟨root, .ofProgram text root, policy⟩
  have start : Walk.start.frames ≠ [] := List.cons_ne_nil _ _
  have visited : visit job .start root = some (job.visit .start root) :=
    visit_eq parsed short .top start
  have restores := job.visit_restores .start root
  have apart : Apart text 0 (job.visit .start root).frame.edits text.byteLength :=
    job.visit_program parsed
  calc unwrapProgram policy text root
      = (visit job .start root).bind (finish job.source text.byteLength) := by
        rw [unwrapProgram, narrow_eq short]
        rfl
    _ = finish job.source text.byteLength (job.visit .start root) := by
        rw [visited, Option.bind_some]
    _ = some ((job.visit .start root).conversion job.source) :=
        finish_eq (restores.nonempty start) apart restores.dedent short
    _ = some (AmdUnwrap.unwrapProgram policy text root) := by
        rw [unwrapProgram_eq_walk]

end AmdUnwrap.Checked

namespace AmdUnwrap

/-- On a text shorter than offsets reach, a conversion never fails a check: all parts of the text
that it takes start before they stop and cut no character, no difference is below zero and no sum
of offsets is out of reach. -/
theorem conversion_passes_checks (options : Options) {text : Text}
    (short : text.byteLength < Checked.offsetLimit) :
    Checked.conversion options text = some (conversion options text) := by
  rw [Checked.conversion, conversion]
  cases parsed : readProgram options.mode text with
  | error error => rfl
  | ok root => exact Checked.unwrapProgram_eq parsed short

theorem conversion_checks_wide_characters :
    let text : Text :=
      "define(['ü'], function (ü) \x7b\n  'use strict'; // ß\n  define(() => '日本');\n\x7d);".toList
    let output : Text :=
      "'use strict';\nvar ü = require('ü');\n// ß\nmodule.exports = '日本';".toList
    text.byteLength < Checked.offsetLimit ∧
      (Checked.conversion {} text).map Conversion.result = some (.ok output) := by
  intro text output
  have short : text.byteLength < Checked.offsetLimit := by decide +kernel
  have converted : (conversion {} text).result = .ok output :=
    ok_of_toOption (by decide +kernel)
  refine ⟨short, ?_⟩
  rw [conversion_passes_checks {} short, Option.map_some, converted]

end AmdUnwrap
