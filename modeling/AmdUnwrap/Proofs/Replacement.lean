import AmdUnwrap.Proofs.Body

namespace AmdUnwrap
open Amd

namespace Source

def separator (s : Source) (statement : Span) (dedent : Nat) : Text :=
  (s.lineEnding statement.start).text ++ s.movedIndent statement.start dedent

theorem moduleEdit_blank {s : Source} {statement region : Span} {directives : Option Span}
    {plan : Plan} {edits : List Edit} {dedent : Nat}
    (braced : plan.body = .statements region directives) (blank : s.trim region = none) :
    s.moduleEdit statement plan edits dedent = ⟨statement,
      (s.separator statement dedent).intercalate (s.requires plan edits dedent)⟩ := by
  simp only [moduleEdit, replacement, movingPart, braced, blank, separator, Option.map_none]

theorem moduleEdit_some {s : Source} {statement region content : Span} {directives : Option Span}
    {plan : Plan} {edits : List Edit} {dedent : Nat}
    (braced : plan.body = .statements region directives) (some : s.trim region = some content) :
    let inner := s.innerDedent statement plan.body dedent
    let parted := s.partedBody (.statements region directives) content
    s.moduleEdit statement plan edits dedent = ⟨statement,
      (s.separator statement dedent).intercalate
        ((parted.1.map (s.render · edits inner)).toList ++ s.requires plan edits dedent ++
          (parted.2.map (s.render · edits inner)).toList)⟩ := by
  simp only [moduleEdit, replacement, movingPart, braced, some, separator, Option.map_some]

end Source

namespace Job

variable {job : Job} {p : Position}

theorem Searches.found {n : Node} (searches : job.Searches p n)
    (done : (job.search p n).failure = none) :
    ∀ edit ∈ (job.search p n).edits, ∃ q k, job.Searches q k ∧ (job.search q k).edits = [edit] := by
  induction n using Node.induction generalizing p with
  | step n ih =>
      intro edit member
      have alone {other : Edit} (edits : (job.search p n).edits = [other]) :
          ∃ q k, job.Searches q k ∧ (job.search q k).edits = [edit] := by
        rw [edits, List.mem_singleton] at member
        rw [← member] at edits
        exact ⟨p, n, searches, edits⟩
      rcases search_cases done with ⟨_, _, _, _, -, -, -, -, -, edits⟩ | ⟨_, _, -, -, edits⟩ |
        ⟨still, quiet, done', edits⟩
      · exact alone edits
      · exact alone edits
      · rw [edits, searchAll_edits done'] at member
        obtain ⟨m, child, member⟩ := List.mem_flatMap.mp member
        exact ih m child (searches.child still quiet child) (searchAll_failure.mp done' m child)
          edit member

theorem Searches.inBody {text : Text} {span bodySpan : Span} {call factory : Node}
    {notes : List Event} {plan : Plan} {heads body : List Node}
    (searches : job.Searches p (.mk .expressionStatement span [call])) (amd : isAmd call = true)
    (among : p.amongStatements = true)
    (decided : decision job.root job.policy call = .convert notes plan)
    (hasBody : HasBody text call factory heads bodySpan body) :
    ∀ n ∈ body,
      job.Searches (job.inBody p span call plan factory (.mk .functionBody bodySpan body)) n := by
  have isCall := kind_of_isAmd amd
  have braced := hasBody.braced
  obtain ⟨atCall, atFactory⟩ := hasBody.members amd
  have first := (searches.inside amd among decided).child
    (not_converts_of_kind (by rw [isCall]; nofun))
    (not_returns_of_kind (by rw [isCall]; nofun)) atCall
  have second := first.child
    (not_converts_of_kind (fun same => by rw [same] at braced; cases braced))
    (not_returns_of_kind (fun same => by rw [same] at braced; cases braced)) atFactory
  intro n member
  exact second.child (not_converts_of_kind nofun) (not_returns_of_kind nofun) member

end Job

theorem Source.moduleEdit_rebuilt {s : Source} (statement : Span) (dedent : Nat) {plan : Plan}
    {before inner after : Text} {body : List Node} {others : List Edit}
    {found : Node → List Edit} {o lo hi : Nat} (whole : s.text = before ++ (inner ++ after))
    (start : lo = before.byteLength) (stop : hi = lo + inner.byteLength)
    (braced : plan.body = .statements ⟨lo, hi⟩ (directiveSpan body))
    (nested : Nested s.text lo body hi)
    (each : ∀ n ∈ body, Apart s.text n.span.start (found n) n.span.stop)
    (outside : Apart s.text o others lo) :
    let edits := others ++ body.flatMap found
    ∃ replacement, s.moduleEdit statement plan edits dedent = ⟨statement, replacement⟩ ∧
      Rebuilt (s.shift (s.innerDedent statement plan.body dedent) 0) lo (body.flatMap found)
        (directiveSpan body) (s.separator statement dedent) (s.requires plan edits dedent)
        inner replacement := by
  intro edits
  rcases Text.trim_cases whole rfl with ⟨none, blank⟩ |
    ⟨left, part, right, rfl, leftBlank, rightBlank, solid, some⟩
  · rw [← start, ← stop] at none
    refine ⟨_, moduleEdit_blank braced none, .blank blank ?_⟩
    exact (Apart.flatMap nested each).eq_nil_of_blank whole start stop blank
  · rw [← start, ← stop] at some
    obtain ⟨front, back, moved, splices, opening, interposes⟩ :=
      s.interposes (s.innerDedent statement plan.body dedent) ⟨lo, hi⟩ whole start
        (by simp [stop, Text.byteLength_append, Nat.add_assoc]) leftBlank rightBlank solid nested
        each outside (Nat.le_refl _)
    exact ⟨_, moduleEdit_some braced some,
      .solid leftBlank rightBlank solid splices opening (interposes _ _)⟩

theorem HasBody.nested {text : Text} {call factory : Node} {heads body : List Node}
    {span : Span} (hasBody : HasBody text call factory heads span body)
    (nested : Nested text call.span.start call.children call.span.stop)
    (amd : isAmd call = true) :
    Nested text (interior span).start body (interior span).stop := by
  obtain ⟨atCall, atFactory⟩ := hasBody.members amd
  have inside : Nested text span.start body span.stop := ((nested.mem atCall).2.mem atFactory).2
  obtain ⟨before, inner, after, -, rfl, interior⟩ := hasBody.encloses.interior
  rw [interior]
  apply inside.tighten (Nat.le_add_right _ _)
  intro n member
  have bounds := hasBody.encloses.2 n member
  dsimp only at bounds ⊢
  omega

/-- The place of a statement is taken by the text between the braces of its call's factory: with
each outermost converted statement and each `return` of the factory in it replaced once, and with
one statement for each dependency after the directives. -/
def Job.Rebuilds (job : Job) (p : Position) (span : Span) (call : Node) (plan : Plan) : Prop :=
  ∃ factory heads bodySpan body, ∃ before inner after : Text,
    HasBody job.source.text call factory heads bodySpan body ∧
    job.source.text = before ++ ('{' :: inner ++ '}' :: after) ∧
    bodySpan = ⟨before.byteLength, before.byteLength + inner.byteLength + 2⟩ ∧
    plan.body = .statements (interior bodySpan) (directiveSpan body) ∧
    let position := job.inBody p span call plan factory (.mk .functionBody bodySpan body)
    let edits := (job.searchAll position body).edits
    (∀ s, s ∈ edits.map Edit.span ↔ ReplacedIn job.root job.policy position.path body s) ∧
    (∀ edit ∈ edits, ∃ q n, job.Searches q n ∧ (job.search q n).edits = [edit]) ∧
    ∃ replacement,
      (job.search p (.mk .expressionStatement span [call])).edits = [⟨span, replacement⟩] ∧
      Rebuilt (job.source.shift (job.source.innerDedent span plan.body p.dedent) 0)
        (before.byteLength + 1) edits (directiveSpan body) (job.source.separator span p.dedent)
        (job.source.requires plan (job.foundIn p span call plan).edits p.dedent) inner replacement

theorem Job.Searches.rebuilt {job : Job} {mode : Mode} {p : Position} {span region : Span}
    {call : Node} {notes : List Event} {plan : Plan} {directives : Option Span}
    (searched : job.Searches p (.mk .expressionStatement span [call]))
    (parsed : readProgram mode job.source.text = .ok job.root)
    (done : (job.search .top job.root).failure = none) (amd : isAmd call = true)
    (among : p.amongStatements = true)
    (decided : decision job.root job.policy call = .convert notes plan)
    (braced : plan.body = .statements region directives) :
    job.Rebuilds p span call plan := by
  obtain ⟨inside, edits⟩ := Job.search_converted (searched.done done) amd among decided
  have statement := searched.placed parsed
  have around := (searched.inside amd among decided).placed parsed
  obtain ⟨found, -⟩ := decision_convert decided
  rw [braced] at found
  obtain ⟨factory, heads, bodySpan, body, hasBody, rfl, rfl⟩ :=
    moduleBody_statements amd around.nested found
  obtain ⟨others, outside, bodyDone, all⟩ := Job.foundIn_parts amd around.nested hasBody inside
  obtain ⟨before, inner, after, whole, bodySpan_eq, interior⟩ := hasBody.encloses.interior
  have region := braced
  rw [interior] at region
  have nested := hasBody.nested around.nested amd
  rw [interior] at nested
  have start : before.byteLength + 1 = Text.byteLength (before ++ ['{']) :=
    (Text.byteLength_append before ['{']).symm
  have whole' : job.source.text = before ++ ['{'] ++ (inner ++ '}' :: after) := by
    simp [whole]
  have low : bodySpan.start = before.byteLength := congrArg Span.start bodySpan_eq
  have outer := outside.le
  rw [low] at outer outside
  have enclosed (s : Span) (member : s ∈ (job.inBody p span call plan factory
      (.mk .functionBody bodySpan body)).converting) : s.start < before.byteLength + 1 :=
    Nat.lt_succ_of_le ((around.inside s member).trans outer)
  have each : ∀ n ∈ body, Apart job.source.text n.span.start
      (job.search (job.inBody p span call plan factory (.mk .functionBody bodySpan body)) n).edits
      n.span.stop := by
    intro n member
    obtain ⟨stands, below⟩ := nested.mem member
    exact Job.search_apart stands below (Job.searchAll_failure.mp bodyDone n member)
  have plain : isAmd factory = false :=
    Bool.eq_false_iff.mpr fun amd => hasBody.kind_ne rfl (kind_of_isAmd amd)
  have visited := searched.inBody amd among decided hasBody
  have spans := Job.body_spans amd rfl plain nested enclosed bodyDone
  have collected := Job.searchAll_edits bodyDone
  obtain ⟨replacement, edit, rebuilt⟩ := Source.moduleEdit_rebuilt span p.dedent whole'
    start rfl region nested each (outside.reach (Nat.le_succ _))
  rw [← collected] at edit rebuilt
  rw [← all] at edit rebuilt
  rw [edit] at edits
  refine ⟨factory, heads, bodySpan, body, before, inner, after, hasBody, whole, bodySpan_eq,
    braced, spans, ?_, replacement, edits, rebuilt⟩
  intro e member
  rw [collected] at member
  obtain ⟨n, inBody, member⟩ := List.mem_flatMap.mp member
  exact (visited n inBody).found (Job.searchAll_failure.mp bodyDone n inBody) e member

end AmdUnwrap
