import AmdUnwrap.Unwrap

namespace AmdUnwrap
open Amd

theorem Node.induction {P : Node → Prop} (step : ∀ n, (∀ m ∈ n.children, P m) → P n) (n : Node) :
    P n := by
  refine @Node.rec P (fun ns => ∀ m ∈ ns, P m) ?_ ?_ ?_ n
  · intro kind span children all
    exact step (.mk kind span children) all
  · simp
  · intro m ms one all
    exact List.forall_mem_cons.mpr ⟨one, all⟩

/-- The search treats the statements of an expression, and those that return one, in ways of their
own. -/
inductive Node.Treatment : Node → Prop where
  | statement (span : Span) (call : Node) : Treatment (.mk .expressionStatement span [call])
  | returning (span : Span) (argument : Node) : Treatment (.mk .returnStatement span [argument])
  | other {n : Node} : (∀ span call, n ≠ .mk .expressionStatement span [call]) →
      (∀ span argument, n ≠ .mk .returnStatement span [argument]) → Treatment n

theorem Node.treatment (n : Node) : n.Treatment := by
  by_cases statement : ∃ span call, n = .mk .expressionStatement span [call]
  · obtain ⟨span, call, rfl⟩ := statement
    exact .statement span call
  by_cases returning : ∃ span argument, n = .mk .returnStatement span [argument]
  · obtain ⟨span, argument, rfl⟩ := returning
    exact .returning span argument
  · exact .other (fun span call same => statement ⟨span, call, same⟩)
      (fun span argument same => returning ⟨span, argument, same⟩)

/-- A statement in a list of statements whose call is converted. -/
def Converts (root : Node) (policy : Policy) (path : List Node) (n : Node) : Prop :=
  ∃ span call notes plan, n = .mk .expressionStatement span [call] ∧ isAmd call = true ∧
    path.head?.any holdsStatements = true ∧ decision root policy call = .convert notes plan

/-- A `return` that gives its value to a module. -/
def Returns (p : Position) (n : Node) : Prop :=
  ∃ span argument, n = .mk .returnStatement span [argument] ∧ p.inFactory = true

/-- A node below another at the end of a path, with none on the way that is converted. -/
inductive Exposed (root : Node) (policy : Policy) (start : List Node) (top : Node) :
    List Node → Node → Prop where
  | top : Exposed root policy start top start top
  | child {path : List Node} {n m : Node} : Exposed root policy start top path n →
      ¬ Converts root policy path n → m ∈ n.children → Exposed root policy start top (n :: path) m

namespace Findings

theorem followedBy_failure {first later : Findings} :
    (first.followedBy later).failure = .none ↔ first.failure = .none ∧ later.failure = .none := by
  unfold followedBy
  cases h : first.failure <;> simp [h]

theorem followedBy_edits {first later : Findings} (done : first.failure = .none) :
    (first.followedBy later).edits = first.edits ++ later.edits := by
  rw [followedBy, done]

end Findings

namespace Job

variable {job : Job} {p : Position}

theorem searchAll_failure {ns : List Node} :
    (job.searchAll p ns).failure = none ↔ ∀ n ∈ ns, (job.search p n).failure = none := by
  induction ns with
  | nil => simp [searchAll, Findings.none]
  | cons n ns ih => rw [searchAll, Findings.followedBy_failure, ih, List.forall_mem_cons]

theorem searchAll_edits {ns : List Node} (done : (job.searchAll p ns).failure = none) :
    (job.searchAll p ns).edits = ns.flatMap fun n => (job.search p n).edits := by
  induction ns with
  | nil => rfl
  | cons n ns ih =>
      rw [searchAll, Findings.followedBy_failure] at done
      rw [searchAll, Findings.followedBy_edits done.1, ih done.2, List.flatMap_cons]

theorem search_other {n : Node} (statement : ∀ span call, n ≠ .mk .expressionStatement span [call])
    (return_ : ∀ span argument, n ≠ .mk .returnStatement span [argument]) :
    job.search p n = job.searchAll (p.below n) n.children := by
  obtain ⟨kind, span, children⟩ := n
  rw [search]
  · rfl
  · rintro call rfl rfl
    exact statement span call rfl
  · rintro argument rfl rfl
    exact return_ span argument rfl

def within (job : Job) (p : Position) (span : Span) (call : Node) (plan : Plan) : Position :=
  (p.below (.mk .expressionStatement span [call])).inside call.span
    (job.source.innerDedent span plan.body p.dedent)

def foundIn (job : Job) (p : Position) (span : Span) (call : Node) (plan : Plan) : Findings :=
  job.searchAll (job.within p span call plan) [call]

/-- What there is to note of a node that is not replaced: why the call of a statement stays. -/
inductive Remarks (job : Job) (p : Position) : Node → List Event → Prop where
  | left {span : Span} {call : Node} {notes : List Event} : isAmd call = true →
      p.amongStatements = true → decision job.root job.policy call = .leave notes →
      Remarks job p (.mk .expressionStatement span [call]) notes
  | outside {span : Span} {call : Node} : isAmd call = true → ¬ p.amongStatements = true →
      Remarks job p (.mk .expressionStatement span [call])
        [.outsideStatementList call.span.start]
  | plain {n : Node} :
      (∀ span call, n = .mk .expressionStatement span [call] → ¬ isAmd call = true) →
      Remarks job p n []

theorem Remarks.not_converts {n : Node} {notes : List Event} (remarks : job.Remarks p n notes) :
    ¬ Converts job.root job.policy p.path n := by
  rintro ⟨span, call, notes', plan, rfl, amd, among, decided⟩
  cases remarks with
  | left _ _ decided' => cases decided.symm.trans decided'
  | outside _ apart => exact apart among
  | plain other => exact other span call rfl amd

/-- All that the search does at a node. -/
inductive Finds (job : Job) (p : Position) : Node → Findings → Prop where
  | replaced {span : Span} {call : Node} {notes : List Event} {plan : Plan} :
      isAmd call = true → p.amongStatements = true →
      decision job.root job.policy call = .convert notes plan →
      Finds job p (.mk .expressionStatement span [call])
        (job.replace span plan notes p.dedent (job.foundIn p span call plan))
  | failed {span : Span} {call : Node} {list : Unresolved} : isAmd call = true →
      p.amongStatements = true → decision job.root job.policy call = .fail list →
      Finds job p (.mk .expressionStatement span [call]) ⟨[], [], some list⟩
  | returned {span : Span} {argument : Node} : p.inFactory = true →
      Finds job p (.mk .returnStatement span [argument])
        ⟨[job.source.returnEdit span argument.span p.dedent], [], none⟩
  | passed {n : Node} {notes : List Event} : job.Remarks p n notes → ¬ Returns p n →
      Finds job p n ((job.searchAll (p.below n) n.children).noting notes)

theorem search_finds (job : Job) (p : Position) (n : Node) : job.Finds p n (job.search p n) := by
  cases n.treatment with
  | statement span call =>
      have quiet : ¬ Returns p (.mk .expressionStatement span [call]) := by
        rintro ⟨_, _, same, -⟩
        cases same
      rw [search]
      split
      next amd =>
        split
        next among =>
          cases decided : decision job.root job.policy call with
          | convert notes plan => exact .replaced amd among decided
          | leave notes => exact .passed (.left amd among decided) quiet
          | fail list => exact .failed amd among decided
        next apart => exact .passed (.outside amd apart) quiet
      next other =>
        refine .passed (.plain fun _ _ same => ?_) quiet
        cases same
        exact other
  | returning span argument =>
      rw [search]
      split
      next inside => exact .returned inside
      next outside =>
        refine .passed (.plain fun _ _ same => ?_) ?_
        · cases same
        · rintro ⟨_, _, _, inside⟩
          exact outside inside
  | other statement return_ =>
      rw [search_other statement return_]
      refine .passed (.plain fun span call same => absurd same (statement span call)) ?_
      rintro ⟨span, argument, same, -⟩
      exact return_ span argument same

theorem search_cases {n : Node} (done : (job.search p n).failure = none) :
    (∃ span call notes plan, n = .mk .expressionStatement span [call] ∧ isAmd call = true ∧
      p.amongStatements = true ∧ decision job.root job.policy call = .convert notes plan ∧
      (job.foundIn p span call plan).failure = none ∧
      (job.search p n).edits =
        [job.source.moduleEdit span plan (job.foundIn p span call plan).edits p.dedent]) ∨
    (∃ span argument, n = .mk .returnStatement span [argument] ∧ p.inFactory = true ∧
      (job.search p n).edits = [job.source.returnEdit span argument.span p.dedent]) ∨
    (¬ Converts job.root job.policy p.path n ∧ ¬ Returns p n ∧
      (job.searchAll (p.below n) n.children).failure = none ∧
      (job.search p n).edits = (job.searchAll (p.below n) n.children).edits) := by
  have finds := job.search_finds p n
  generalize job.search p n = f at done finds ⊢
  cases finds with
  | replaced amd among decided =>
      exact .inl ⟨_, _, _, _, rfl, amd, among, decided, done, rfl⟩
  | failed => cases done
  | returned inside => exact .inr (.inl ⟨_, _, rfl, inside, rfl⟩)
  | passed remarks quiet => exact .inr (.inr ⟨remarks.not_converts, quiet, done, rfl⟩)

/-- The search comes from one node to another without entering what is replaced. -/
inductive Visits (job : Job) : Position → Node → Position → Node → Prop where
  | here {p : Position} {n : Node} : job.Visits p n p n
  | down {p q : Position} {n m k : Node} : ¬ Converts job.root job.policy p.path n →
      ¬ Returns p n → m ∈ n.children → job.Visits (p.below n) m q k → job.Visits p n q k

def Replaces (job : Job) (p : Position) (n : Node) : Prop :=
  Converts job.root job.policy p.path n ∨ Returns p n

theorem search_spans {n : Node} (done : (job.search p n).failure = none) (span : Span) :
    span ∈ (job.search p n).edits.map Edit.span ↔
      ∃ q k, job.Visits p n q k ∧ job.Replaces q k ∧ k.span = span := by
  induction n using Node.induction generalizing p with
  | step n ih =>
      rcases search_cases done with ⟨span', call, notes, plan, rfl, amd, among, decided, -, edits⟩ |
        ⟨span', argument, rfl, inside, edits⟩ | ⟨still, quiet, done', edits⟩
      · have converts :
            Converts job.root job.policy p.path (.mk .expressionStatement span' [call]) :=
          ⟨span', call, notes, plan, rfl, amd, among, decided⟩
        rw [edits, List.map_singleton, List.mem_singleton]
        constructor
        · rintro rfl
          exact ⟨p, _, .here, .inl converts, rfl⟩
        · rintro ⟨q, k, visits, -, rfl⟩
          cases visits with
          | here => rfl
          | down still _ _ _ => exact absurd converts still
      · have returns : Returns p (.mk .returnStatement span' [argument]) :=
          ⟨span', argument, rfl, inside⟩
        rw [edits, List.map_singleton, List.mem_singleton]
        constructor
        · rintro rfl
          exact ⟨p, _, .here, .inr returns, rfl⟩
        · rintro ⟨q, k, visits, -, rfl⟩
          cases visits with
          | here => rfl
          | down _ quiet _ _ => exact absurd returns quiet
      · rw [edits, searchAll_edits done', List.map_flatMap, List.mem_flatMap]
        rw [searchAll_failure] at done'
        constructor
        · rintro ⟨m, member, found⟩
          obtain ⟨q, k, visits, replaces, same⟩ := (ih m member (done' m member)).mp found
          exact ⟨q, k, .down still quiet member visits, replaces, same⟩
        · rintro ⟨q, k, visits, replaces, same⟩
          cases visits with
          | here => exact absurd replaces (not_or.mpr ⟨still, quiet⟩)
          | down _ _ member visits =>
              exact ⟨_, member, (ih _ member (done' _ member)).mpr ⟨q, k, visits, replaces, same⟩⟩

namespace Visits

variable {q : Position} {n m k : Node}

theorem converting_eq (visits : job.Visits p n q k) : q.converting = p.converting := by
  induction visits with
  | here => rfl
  | down _ _ _ _ ih => exact ih

theorem dedent_eq (visits : job.Visits p n q k) : q.dedent = p.dedent := by
  induction visits with
  | here => rfl
  | down _ _ _ _ ih => exact ih

theorem child (visits : job.Visits p n q k) (still : ¬ Converts job.root job.policy q.path k)
    (quiet : ¬ Returns q k) (member : m ∈ k.children) : job.Visits p n (q.below k) m := by
  induction visits with
  | here => exact .down still quiet member .here
  | down still' quiet' member' _ ih => exact .down still' quiet' member' (ih still quiet member)

theorem found (visits : job.Visits p n q k) (done : (job.search p n).failure = none) :
    ∀ edit ∈ (job.search q k).edits, edit ∈ (job.search p n).edits := by
  induction visits with
  | here => exact fun _ member => member
  | down still quiet member _ ih =>
      intro edit inside
      rcases search_cases done with ⟨_, _, _, _, rfl, amd, among, decided, -, -⟩ |
        ⟨_, _, rfl, inFactory, -⟩ | ⟨-, -, done', edits⟩
      · exact absurd ⟨_, _, _, _, rfl, amd, among, decided⟩ still
      · exact absurd ⟨_, _, rfl, inFactory⟩ quiet
      · rw [edits, searchAll_edits done', List.mem_flatMap]
        exact ⟨_, member, ih (searchAll_failure.mp done' _ member) edit inside⟩

end Visits

end Job

namespace Exposed

variable {root : Node} {policy : Policy} {start path : List Node} {top n m : Node}

theorem up (still : ¬ Converts root policy start top) (member : m ∈ top.children)
    (exposed : Exposed root policy (top :: start) m path n) :
    Exposed root policy start top path n := by
  induction exposed with
  | top => exact .child .top still member
  | child _ still' member' ih => exact .child ih still' member'

end Exposed

theorem Job.Visits.exposed {job : Job} {p q : Position} {n k : Node} (visits : job.Visits p n q k) :
    Exposed job.root job.policy p.path n q.path k := by
  induction visits with
  | here => exact .top
  | down still _ member _ ih => exact ih.up still member

theorem not_returns {p : Position} (outside : p.converting = []) (n : Node) : ¬ Returns p n := by
  rintro ⟨_, _, -, inside⟩
  have none : ∀ m, p.isReplaced m = false := by
    intro m
    simp [Position.isReplaced, outside]
  rw [Position.inFactory, ancestorWithin?_isSome, List.any_eq_true] at inside
  obtain ⟨m, -, replaced⟩ := inside
  rw [none m] at replaced
  cases replaced

theorem Exposed.visits {job : Job} {p : Position} {n k : Node} {path : List Node}
    (exposed : Exposed job.root job.policy p.path n path k) (outside : p.converting = []) :
    ∃ q, q.path = path ∧ q.converting = [] ∧ job.Visits p n q k := by
  induction exposed with
  | top => exact ⟨p, rfl, outside, .here⟩
  | child _ still member ih =>
      obtain ⟨q, rfl, outside', visits⟩ := ih
      exact ⟨q.below _, rfl, outside', visits.child still (not_returns outside' _) member⟩

theorem Job.search_exposed {job : Job} {p : Position} {n : Node} (outside : p.converting = [])
    (done : (job.search p n).failure = none) (span : Span) :
    span ∈ (job.search p n).edits.map Edit.span ↔
      ∃ path k, Exposed job.root job.policy p.path n path k ∧
        Converts job.root job.policy path k ∧ k.span = span := by
  rw [job.search_spans done]
  constructor
  · rintro ⟨q, k, visits, converts | returns, same⟩
    · exact ⟨q.path, k, visits.exposed, converts, same⟩
    · exact absurd returns (not_returns (visits.converting_eq.trans outside) k)
  · rintro ⟨path, k, exposed, converts, same⟩
    obtain ⟨q, rfl, -, visits⟩ := exposed.visits outside
    exact ⟨q, k, visits, .inl converts, same⟩

end AmdUnwrap
