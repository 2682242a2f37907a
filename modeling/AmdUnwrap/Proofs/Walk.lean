import AmdUnwrap.Proofs.Frame

/-!
The search as a walk that keeps its place on stacks: the nodes around, the calls being replaced,
and a frame of edits for each of them over that of the whole program. A visit leaves the stacks as
it found them, and the walk carries out the search.
-/

namespace AmdUnwrap
open Amd

/-- The edits of a part of the text, and how far that part moves left. -/
structure Frame where
  dedent : Nat
  edits : List Edit

structure Walk where
  ancestors : List Node
  /-- The frames of the calls being replaced, the nearest first, and that of the program. -/
  frames : List Frame
  converting : List Span
  events : List Event
  failure : Option Unresolved

namespace Walk

def start : Walk := ⟨[], [⟨0, []⟩], [], [], none⟩

def frame (w : Walk) : Frame := w.frames.headD ⟨0, []⟩

def position (w : Walk) : Position := ⟨w.ancestors, w.converting, w.frame.dedent⟩

def note (w : Walk) (events : List Event) : Walk := { w with events := w.events ++ events }

def fail (w : Walk) (list : Unresolved) : Walk := { w with failure := some list }

def enter (w : Walk) (n : Node) : Walk := { w with ancestors := n :: w.ancestors }

def leave (w : Walk) : Walk := { w with ancestors := w.ancestors.tail }

def emit (w : Walk) (edit : Edit) : Walk :=
  { w with frames := w.frames.modifyHead fun f => { f with edits := f.edits ++ [edit] } }

def begin (w : Walk) (call : Span) (dedent : Nat) : Walk :=
  { w with frames := ⟨dedent, []⟩ :: w.frames, converting := call :: w.converting }

def finish (w : Walk) : Walk :=
  { w with frames := w.frames.tail, converting := w.converting.tail }

end Walk

inductive Action where
  | stop
  | fail (list : Unresolved)
  | give (argument : Span)
  | convert (notes : List Event) (plan : Plan) (call : Span)
  | descend (notes : List Event)

namespace Job

def callAction (job : Job) (w : Walk) (call : Node) : Action :=
  if isAmd call then
    if w.position.amongStatements then
      match decision job.root job.policy call with
      | .convert notes plan => .convert notes plan call.span
      | .leave notes => .descend notes
      | .fail list => .fail list
    else .descend [.outsideStatementList call.span.start]
  else .descend []

/-- A failure stops the walk at the statements of expressions only. -/
def action (job : Job) (w : Walk) : Node → Action
  | .mk .expressionStatement _ [call] =>
    if w.failure.isSome then .stop else job.callAction w call
  | .mk .returnStatement _ [argument] =>
    if w.position.inFactory then .give argument.span else .descend []
  | _ => .descend []

def opening (job : Job) (w : Walk) (n : Node) (notes : List Event) (plan : Plan) (call : Span) :
    Walk :=
  let dedent := job.source.innerDedent n.span plan.body w.frame.dedent
  ((w.note notes).begin call dedent).enter n

def closing (job : Job) (statement : Span) (plan : Plan) (dedent : Nat) (inside : Walk) : Walk :=
  let edit := job.source.moduleEdit statement plan inside.frame.edits dedent
  (inside.leave.finish.emit edit).note
    [.converted statement.start plan.dependencies.length plan.body]

mutual
def visit (job : Job) (w : Walk) : Node → Walk
  | .mk kind span children =>
    match job.action w (.mk kind span children) with
    | .stop => w
    | .fail list => w.fail list
    | .give argument => w.emit (job.source.returnEdit span argument w.frame.dedent)
    | .convert notes plan call =>
      job.closing span plan w.frame.dedent
        (job.visitAll (job.opening w (.mk kind span children) notes plan call) children)
    | .descend notes =>
      (job.visitAll ((w.note notes).enter (.mk kind span children)) children).leave

def visitAll (job : Job) (w : Walk) : List Node → Walk
  | [] => w
  | n :: rest => job.visitAll (job.visit w n) rest
end

end Job

namespace Walk

variable {w w' w'' : Walk}

/-- The stacks are as they were, but for the edits of the nearest frame. -/
structure Restores (w w' : Walk) : Prop where
  ancestors : w'.ancestors = w.ancestors
  converting : w'.converting = w.converting
  frames : w'.frames.length = w.frames.length
  outer : w'.frames.tail = w.frames.tail
  dedent : w'.frame.dedent = w.frame.dedent

namespace Restores

theorem refl : Restores w w := ⟨rfl, rfl, rfl, rfl, rfl⟩

theorem trans (first : Restores w w') (later : Restores w' w'') : Restores w w'' where
  ancestors := later.ancestors.trans first.ancestors
  converting := later.converting.trans first.converting
  frames := later.frames.trans first.frames
  outer := later.outer.trans first.outer
  dedent := later.dedent.trans first.dedent

theorem emit {edit : Edit} : Restores w (w.emit edit) := by
  obtain ⟨ancestors, frames, converting, events, failure⟩ := w
  cases frames <;> exact ⟨rfl, rfl, rfl, rfl, rfl⟩

theorem note {events : List Event} : Restores w (w.note events) := ⟨rfl, rfl, rfl, rfl, rfl⟩

theorem fail {list : Unresolved} : Restores w (w.fail list) := ⟨rfl, rfl, rfl, rfl, rfl⟩

theorem leave {n : Node} (restores : Restores (w.enter n) w') : Restores w w'.leave where
  ancestors := congrArg List.tail restores.ancestors
  converting := restores.converting
  frames := restores.frames
  outer := restores.outer
  dedent := restores.dedent

theorem finish {call : Span} {dedent : Nat} (restores : Restores (w.begin call dedent) w') :
    Restores w w'.finish := by
  have frames : w'.finish.frames = w.frames := restores.outer
  refine ⟨restores.ancestors, congrArg List.tail restores.converting, ?_, ?_, ?_⟩
  · rw [frames]
  · rw [frames]
  · rw [frame, frames]
    rfl

end Restores
end Walk

namespace Job

variable {job : Job} {w : Walk}

theorem visitAll_restores {ns : List Node}
    (each : ∀ n ∈ ns, ∀ w : Walk, w.Restores (job.visit w n)) :
    w.Restores (job.visitAll w ns) := by
  induction ns generalizing w with
  | nil =>
      rw [visitAll]
      exact .refl
  | cons n ns ih =>
      rw [List.forall_mem_cons] at each
      rw [visitAll]
      exact (each.1 w).trans (ih each.2)

theorem visit_restores (job : Job) (w : Walk) (n : Node) : w.Restores (job.visit w n) := by
  induction n using Node.induction generalizing w with
  | step n ih =>
      obtain ⟨kind, span, children⟩ := n
      rw [visit]
      cases job.action w (.mk kind span children) with
      | stop => exact .refl
      | fail list => exact .fail
      | give argument => exact .emit
      | convert notes plan call =>
          have inside := (visitAll_restores (w := job.opening w (.mk kind span children) notes
            plan call) ih).leave.finish
          exact .trans .note (inside.trans (.trans .emit .note))
      | descend notes => exact .trans .note (visitAll_restores ih).leave

end Job

namespace Walk

variable {w w' w'' : Walk} {f g : Findings}

/-- The second state adds to the first what a search has found, if the walk had not failed. -/
structure Carries (w : Walk) (f : Findings) (w' : Walk) : Prop where
  failure : w'.failure = w.failure.or f.failure
  events : w'.events = if w.failure.isSome then w.events else w.events ++ f.events
  edits : w.failure = none → f.failure = none → w'.frame.edits = w.frame.edits ++ f.edits

theorem Restores.position (restores : Restores w w') : w'.position = w.position := by
  rw [Walk.position, restores.ancestors, restores.converting, restores.dedent]
  rfl

theorem Restores.nonempty (restores : Restores w w') (some : w.frames ≠ []) : w'.frames ≠ [] := by
  rw [← List.length_pos_iff] at some ⊢
  rwa [restores.frames]

theorem frame_emit (some : w.frames ≠ []) (edit : Edit) :
    (w.emit edit).frame.edits = w.frame.edits ++ [edit] := by
  obtain ⟨ancestors, frames, converting, events, failure⟩ := w
  cases frames with
  | nil => exact absurd rfl some
  | cons frame frames => rfl

theorem note_nil : w.note [] = w := by
  rw [note, List.append_nil]

namespace Carries

theorem fail {list : Unresolved} (done : w.failure = .none) :
    Carries w ⟨[], [], some list⟩ (w.fail list) where
  failure := by
    rw [done]
    rfl
  events := by simp [Walk.fail]
  edits := nofun

theorem emit {edit : Edit} (nonempty : w.frames ≠ []) :
    Carries w ⟨[edit], [], .none⟩ (w.emit edit) where
  failure := (Option.or_none).symm
  events := by simp [Walk.emit]
  edits := fun _ _ => frame_emit nonempty edit

theorem none : Carries w .none w where
  failure := (Option.or_none).symm
  events := by simp [Findings.none]
  edits := fun _ _ => (List.append_nil _).symm

theorem failed (failed : w.failure.isSome = true) (failure : w'.failure = w.failure)
    (events : w'.events = w.events) : Carries w f w' := by
  obtain ⟨list, found⟩ := Option.isSome_iff_exists.mp failed
  refine ⟨?_, ?_, ?_⟩
  · rw [failure, found]
    rfl
  · rw [events, if_pos failed]
  · intro done
    rw [found] at done
    cases done

theorem followedBy (first : Carries w f w') (later : Carries w' g w'') :
    Carries w (f.followedBy g) w'' := by
  have failure := later.failure
  have events := later.events
  rw [first.failure, first.events] at *
  cases ended : f.failure with
  | some list =>
      have same : f.followedBy g = f := by rw [Findings.followedBy, ended]
      rw [same]
      refine ⟨?_, ?_, fun _ done => ?_⟩
      · rw [failure, ended]
        cases w.failure <;> rfl
      · rw [events, ended]
        cases w.failure <;> rfl
      · rw [ended] at done
        cases done
  | none =>
      have same : f.followedBy g = ⟨f.edits ++ g.edits, f.events ++ g.events, g.failure⟩ := by
        rw [Findings.followedBy, ended]
      rw [ended, Option.or_none] at failure events
      rw [same]
      refine ⟨failure, ?_, fun done done' => ?_⟩
      · rw [events]
        cases w.failure
        · exact List.append_assoc ..
        · rfl
      · rw [later.edits (by rw [first.failure, done, ended]; rfl) done', first.edits done ended,
          List.append_assoc]

theorem leave {n : Node} (carries : Carries (w.enter n) f w') : Carries w f w'.leave :=
  ⟨carries.failure, carries.events, carries.edits⟩

theorem noting {notes : List Event} (done : w.failure = .none)
    (carries : Carries (w.note notes) f w') : Carries w (f.noting notes) w' := by
  refine ⟨carries.failure, ?_, carries.edits⟩
  rw [carries.events, note, done]
  exact List.append_assoc ..

end Carries
end Walk

namespace Job

variable {job : Job} {w : Walk}

theorem action_other {n : Node} (statement : ∀ span call, n ≠ .mk .expressionStatement span [call])
    (return_ : ∀ span argument, n ≠ .mk .returnStatement span [argument]) :
    job.action w n = .descend [] := by
  unfold action
  split
  · exact absurd rfl (statement _ _)
  · exact absurd rfl (return_ _ _)
  · rfl

theorem closing_edits {n : Node} {call : Span} {notes : List Event} {plan : Plan} {inside : Walk}
    (some : w.frames ≠ []) (restores : (job.opening w n notes plan call).Restores inside) :
    (job.closing n.span plan w.frame.dedent inside).frame.edits = w.frame.edits ++
      [job.source.moduleEdit n.span plan inside.frame.edits w.frame.dedent] := by
  have outer : w.Restores inside.leave.finish := .trans .note restores.leave.finish
  have kept : inside.leave.finish.frame = w.frame := by
    rw [Walk.frame, show inside.leave.finish.frames = w.frames from restores.outer, Walk.frame]
  rw [← kept]
  exact Walk.frame_emit (outer.nonempty some) _

theorem closing_carries {n : Node} {call : Span} {notes : List Event} {plan : Plan} {f : Findings}
    {inside : Walk} (done : w.failure = none) (some : w.frames ≠ [])
    (restores : (job.opening w n notes plan call).Restores inside)
    (carries : (job.opening w n notes plan call).Carries f inside) :
    w.Carries (job.replace n.span plan notes w.frame.dedent f)
      (job.closing n.span plan w.frame.dedent inside) := by
  refine ⟨carries.failure, ?_, fun _ done' => ?_⟩
  · have events : inside.events = w.events ++ notes ++ f.events := by
      rw [carries.events]
      simp [opening, Walk.enter, Walk.begin, Walk.note, done]
    simp [closing, replace, Walk.note, Walk.emit, Walk.finish, Walk.leave, events, done]
  · have edits : inside.frame.edits = f.edits := carries.edits done done'
    rw [closing_edits some restores, edits, replace]

theorem visitAll_carries {ns : List Node} (some : w.frames ≠ [])
    (each : ∀ n ∈ ns, ∀ w : Walk, w.frames ≠ [] →
      w.Carries (job.search w.position n) (job.visit w n)) :
    w.Carries (job.searchAll w.position ns) (job.visitAll w ns) := by
  induction ns generalizing w with
  | nil =>
      rw [visitAll, searchAll]
      exact .none
  | cons n ns ih =>
      rw [List.forall_mem_cons] at each
      have restores := job.visit_restores w n
      have later := ih (restores.nonempty some) each.2
      rw [restores.position] at later
      rw [visitAll, searchAll]
      exact (each.1 w some).followedBy later

theorem enter_carries {n : Node} (some : w.frames ≠ [])
    (each : ∀ m ∈ n.children, ∀ w : Walk, w.frames ≠ [] →
      w.Carries (job.search w.position m) (job.visit w m)) :
    w.Carries (job.searchAll (w.position.below n) n.children)
      (job.visitAll (w.enter n) n.children).leave := by
  have inside : (w.enter n).frames ≠ [] := some
  exact (visitAll_carries inside each).leave

theorem statement_carries {span : Span} {call : Node} (some : w.frames ≠ [])
    (each : ∀ m ∈ [call], ∀ w : Walk, w.frames ≠ [] →
      w.Carries (job.search w.position m) (job.visit w m)) :
    w.Carries (job.search w.position (.mk .expressionStatement span [call]))
      (job.visit w (.mk .expressionStatement span [call])) := by
  rw [visit, action]
  cases failed : w.failure with
  | some list => exact .failed (by rw [failed]; rfl) rfl rfl
  | none =>
      have below (notes : List Event) := enter_carries (w := w.note notes)
        (n := .mk .expressionStatement span [call]) some each
      have passed := below []
      rw [Walk.note_nil] at passed
      rw [callAction, search]
      by_cases amd : isAmd call = true
      · by_cases among : w.position.amongStatements = true
        · simp only [Option.isSome_none, if_pos amd, if_pos among]
          cases decision job.root job.policy call with
          | convert notes plan =>
              have opened : (job.opening w (.mk .expressionStatement span [call]) notes plan
                call.span).frames ≠ [] := List.cons_ne_nil _ _
              exact closing_carries (n := .mk .expressionStatement span [call]) failed some
                (visitAll_restores fun m _ w => job.visit_restores w m)
                (visitAll_carries opened each)
          | leave notes => exact (below notes).noting failed
          | fail list => exact .fail failed
        · simp only [Option.isSome_none, if_pos amd, if_neg among]
          exact (below _).noting failed
      · simp only [Option.isSome_none, if_neg amd, Bool.false_eq_true, if_false, Walk.note_nil]
        exact passed

theorem visit_carries (some : w.frames ≠ []) (n : Node) :
    w.Carries (job.search w.position n) (job.visit w n) := by
  induction n using Node.induction generalizing w with
  | step n ih =>
      have each (m : Node) (member : m ∈ n.children) (w : Walk) (some : w.frames ≠ []) :=
        ih m member some
      have passed := enter_carries some each
      cases n.treatment with
      | statement span call => exact statement_carries some each
      | returning span argument =>
          rw [visit, action, search]
          by_cases inside : w.position.inFactory = true
          · rw [if_pos inside, if_pos inside]
            exact .emit some
          · simp only [if_neg inside, Walk.note_nil]
            exact passed
      | other statement return_ =>
          obtain ⟨kind, span, children⟩ := n
          rw [visit, action_other statement return_, search_other statement return_]
          simp only [Walk.note_nil]
          exact passed

end Job

def Walk.conversion (w : Walk) (source : Source) : Conversion :=
  match w.failure with
  | some list => ⟨w.events, .error (.unresolved list)⟩
  | none =>
    ⟨w.events, .ok (source.render ⟨0, source.text.byteLength⟩ w.frame.edits w.frame.dedent)⟩

/-- The walk over a program makes its conversion. -/
theorem unwrapProgram_eq_walk (policy : Policy) (text : Text) (root : Node) :
    let job : Job := ⟨root, .ofProgram text root, policy⟩
    unwrapProgram policy text root = (job.visit .start root).conversion job.source := by
  intro job
  have carries : Walk.start.Carries (job.search .top root) (job.visit .start root) :=
    job.visit_carries (List.cons_ne_nil _ _) root
  have failure : (job.visit .start root).failure = (job.search .top root).failure :=
    carries.failure
  have events : (job.visit .start root).events = (job.search .top root).events := carries.events
  have dedent : (job.visit .start root).frame.dedent = 0 := (job.visit_restores .start root).dedent
  rw [Walk.conversion, failure, events, dedent, unwrapProgram]
  split
  next list found => rw [found]
  next done =>
    have edits : (job.visit .start root).frame.edits = (job.search .top root).edits :=
      carries.edits rfl done
    rw [done, edits]
    rfl

end AmdUnwrap
