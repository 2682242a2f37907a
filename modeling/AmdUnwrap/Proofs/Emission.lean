import AmdUnwrap.Proofs.Cut
import AmdUnwrap.Proofs.Lineage
import AmdUnwrap.Proofs.Replacement

/-!
Which nodes of a program have their text in the output, what becomes of it there, and between
which texts it stands.
-/

namespace AmdUnwrap
open Amd

/-- How the text of a node comes into the output: with the edits that the search finds in it, or
as it is but for lines that move. -/
inductive Way where
  | searched (p : Position)
  | copied (dedent : Nat)

namespace Way

def dedent : Way → Nat
  | searched p => p.dedent
  | copied dedent => dedent

def below (w : Way) (n : Node) : Way :=
  match w with
  | searched p => searched (p.below n)
  | copied dedent => copied dedent

theorem dedent_below (w : Way) (n : Node) : (w.below n).dedent = w.dedent := by
  cases w <;> rfl

end Way

/-- The last part of what replaces a call: text of the program between two texts of its own. -/
structure Ending where
  lead : Text
  part : Span
  trail : Text

def exportLead : Text := "module.exports = ".toList

theorem exportStatement_eq (value : Text) :
    exportStatement value = exportLead ++ (value ++ [';']) := List.append_assoc ..

def bindingLead : Text := "var ".toList

def bindingTrail (specifier : Text) : Text := " = require(".toList ++ specifier ++ ");".toList

theorem requireStatement_some (specifier pattern : Text) :
    requireStatement specifier (some pattern) =
      bindingLead ++ (pattern ++ bindingTrail specifier) := by
  have regroup (a b c d e : Text) : a ++ b ++ c ++ d ++ e = a ++ (b ++ (c ++ d ++ e)) := by
    simp only [List.append_assoc]
  exact regroup ..

namespace Source

def ending (s : Source) : ModuleBody → Option Ending
  | .value expression => some ⟨exportLead, expression, [';']⟩
  | .statements region directives => do
    let (content, _) ← s.movingPart (.statements region directives)
    let rest ← (s.partedBody (.statements region directives) content).2
    return ⟨[], rest, []⟩

theorem replacement_ending {s : Source} {plan : Plan} {e : Ending} (edits : List Edit)
    (statement : Span) (dedent : Nat) (found : s.ending plan.body = some e) :
    let inner := s.innerDedent statement plan.body dedent
    ∃ texts, s.replacement plan edits dedent inner =
      texts ++ [e.lead ++ (s.render e.part edits inner ++ e.trail)] := by
  intro inner
  cases body : plan.body with
  | value expression =>
      rw [body, ending, Option.some.injEq] at found
      subst found
      have still : inner = dedent := by simp only [inner, innerDedent, body, movingPart]
      refine ⟨s.requires plan edits dedent, ?_⟩
      simp only [replacement, body, still, exportStatement_eq]
  | statements region directives =>
      rw [body] at found
      obtain ⟨⟨content, _⟩, moves, found⟩ := Option.bind_eq_some_iff.mp found
      obtain ⟨rest, parted, found⟩ := Option.bind_eq_some_iff.mp found
      cases found
      simp only [replacement, body, moves, parted]
      rw [Option.map_some, Option.toList_some, List.nil_append, List.append_nil]
      exact ⟨_, rfl⟩

theorem render_alone (s : Source) (span : Span) (text : Text) (dedent : Nat) :
    s.render span [⟨span, text⟩] dedent = text := by
  have empty (offset : Nat) : s.copy dedent ⟨offset, offset⟩ = [] := by
    rw [copy, slice, Text.slice_empty (Nat.le_refl offset), shift]
  simp [render, splice, Span.within, empty]

theorem render_nil (s : Source) (span : Span) (dedent : Nat) :
    s.render span [] dedent = s.copy dedent span := rfl

theorem movingPart_of_trim {s : Source} {region content : Span} {directives : Option Span}
    (trimmed : s.trim region = some content) : s.movingPart (.statements region directives) =
      some (content, s.blockIndent region content) := by
  rw [movingPart, trimmed, Option.map_some]

end Source

theorem intercalate_middle {α : Type} (separator : List α) (before after : List (List α))
    (text : List α) : separator.intercalate (before ++ text :: after) =
      before.flatMap (· ++ separator) ++ (text ++ after.flatMap (separator ++ ·)) := by
  induction before with
  | nil =>
      induction after generalizing text with
      | nil => simp
      | cons next after ih =>
          rw [List.nil_append, List.intercalate_cons_cons]
          have same := ih next
          rw [List.nil_append, List.flatMap_nil, List.nil_append] at same
          simp [same]
  | cons first before ih =>
      rw [List.cons_append, List.intercalate_cons_of_ne_nil (by simp), ih]
      simp [List.append_assoc]

namespace Job

variable {job : Job}

def editsIn (job : Job) : Way → Node → List Edit
  | .searched p, n => (job.search p n).edits
  | .copied _, _ => []

def image (job : Job) (w : Way) (n : Node) : Text :=
  job.source.render n.span (job.editsIn w n) w.dedent

def Stays (job : Job) : Way → Node → Prop
  | .searched p, n => ¬ Converts job.root job.policy p.path n ∧ ¬ Returns p n
  | .copied _, _ => True

/-- A call in a list of statements that is replaced. -/
structure Unwraps (job : Job) (p : Position) (call : Node) (plan : Plan) : Prop where
  amd : isAmd call = true
  among : p.amongStatements = true
  decided : ∃ notes, decision job.root job.policy call = .convert notes plan

def texts (job : Job) (p : Position) (span : Span) (call : Node) (plan : Plan) : List Text :=
  job.source.replacement plan (job.foundIn p span call plan).edits p.dedent
    (job.source.innerDedent span plan.body p.dedent)

/-- The text of a node comes into the output, in one of the ways, between two texts. What a
program becomes is what becomes of its parts, with three exceptions: of a call that is replaced
the ending and the parameters that receive dependencies come into the output, and of a `return`
of its factory the argument. Elements of its list come too, and are left out here. -/
inductive Comes (job : Job) : Way → Node → (before after : Text) → Prop where
  | top : job.Comes (.searched .top) job.root [] []
  | child {w : Way} {n m : Node} {before after : Text} : job.Comes w n before after →
      job.Stays w n → m ∈ n.children → m.span.start < m.span.stop →
      job.Comes (w.below n) m
        (before ++ job.source.render ⟨n.span.start, m.span.start⟩ (job.editsIn w n) w.dedent)
        (job.source.render ⟨m.span.stop, n.span.stop⟩ (job.editsIn w n) w.dedent ++ after)
  | returned {p : Position} {span : Span} {argument : Node} {before after : Text} :
      job.Comes (.searched p) (.mk .returnStatement span [argument]) before after →
      p.inFactory = true → argument.span.start < argument.span.stop →
      job.Comes (.copied p.dedent) argument (before ++ exportLead) (';' :: after)
  | inside {p q : Position} {span : Span} {call factory k : Node} {plan : Plan} {ending : Ending}
      {before after last : Text} {texts : List Text} :
      job.Comes (.searched p) (.mk .expressionStatement span [call]) before after →
      job.Unwraps p call plan → (arguments call).getLast? = some factory →
      job.Visits ((job.within p span call plan).below call) factory q k →
      k.span.start < k.span.stop → job.source.ending plan.body = some ending →
      k.span.within ending.part = true → job.texts p span call plan = texts ++ [last] →
      job.Comes (.searched q) k
        (before ++ (texts.flatMap (· ++ job.source.separator span p.dedent) ++ (ending.lead ++
          job.source.render ⟨ending.part.start, k.span.start⟩
            (job.foundIn p span call plan).edits q.dedent)))
        (job.source.render ⟨k.span.stop, ending.part.stop⟩
          (job.foundIn p span call plan).edits q.dedent ++ (ending.trail ++ after))
  | parameter {p : Position} {span : Span} {call k : Node} {plan : Plan} {path : List Node}
      {before after specifier : Text} {texts later : List Text} :
      job.Comes (.searched p) (.mk .expressionStatement span [call]) before after →
      job.Unwraps p call plan → Node.Reaches call path k → k.span.start < k.span.stop →
      some k.span ∈ plan.dependencies.map Dependency.parameter →
      job.texts p span call plan = texts ++
        requireStatement specifier (some (job.source.slice k.span)) :: later →
      job.Comes (.copied 0) k
        (before ++ (texts.flatMap (· ++ job.source.separator span p.dedent) ++ bindingLead))
        (bindingTrail specifier ++
          (later.flatMap (job.source.separator span p.dedent ++ ·) ++ after))

theorem editsIn_parted {w : Way} {n m : Node} (stays : job.Stays w n) (member : m ∈ n.children)
    (nested : Nested text n.span.start n.children n.span.stop)
    (done : ∀ p, w = .searched p → (job.search p n).failure = none) :
    PartedAt text n.span.start n.span.stop (job.editsIn w n) m.span
      (job.editsIn (w.below n) m) := by
  cases w with
  | searched p =>
      obtain ⟨done', edits⟩ := search_still (done p rfl) stays.1 stays.2
      have parted := searchAll_parted nested done' member
      rwa [← edits] at parted
  | copied dedent =>
      obtain ⟨first, filled, last⟩ := nested.bounds m member
      exact ⟨⟨[], [], rfl, .nil first, .nil last⟩, .nil filled⟩

theorem moduleBody_value {call : Node} {value : Span}
    (found : moduleBody? call = some (.value value)) :
    ∃ factory, (arguments call).getLast? = some factory ∧ (factory.span = value ∨
      ∃ span parts bodySpan statement n, factory = .mk (.arrow false true) span parts ∧
        parts.getLast? =
          some (.mk .functionBody bodySpan [.mk .expressionStatement statement [n]]) ∧
        n.unparenthesized.span = value) := by
  obtain ⟨factory, last, found⟩ := Option.bind_eq_some_iff.mp found
  refine ⟨factory, last, ?_⟩
  have braced {parts : List Node} : parts.getLast?.bind bracedBody? ≠ some (.value value) := by
    rintro found
    obtain ⟨body, -, found⟩ := Option.bind_eq_some_iff.mp found
    unfold bracedBody? at found
    split at found <;> cases found
  unfold factoryBody? at found
  split at found
  · cases found
    exact .inl rfl
  · exact absurd found braced
  · exact absurd found braced
  next span parts =>
    obtain ⟨body, ending, found⟩ := Option.bind_eq_some_iff.mp found
    unfold conciseValue at found
    split at found
    · cases found
      exact .inr ⟨span, parts, _, _, _, rfl, ending, rfl⟩
    · cases found
  · cases found

theorem reaches_conciseValue {span bodySpan statement : Span} {parts : List Node} {n : Node}
    (last : parts.getLast? =
      some (.mk .functionBody bodySpan [.mk .expressionStatement statement [n]])) :
    ∃ path, Node.Reaches (.mk (.arrow false true) span parts) path n.unparenthesized := by
  obtain ⟨path, reaches⟩ := n.reaches_unparenthesized
  have inBody : Node.mk .functionBody bodySpan [.mk .expressionStatement statement [n]] ∈
    (Node.mk (.arrow false true) span parts).children := List.mem_of_getLast? last
  have inStatement := (Node.Reaches.top.child inBody).child (List.mem_singleton_self _)
  exact ⟨_, (inStatement.child (List.mem_singleton_self n)).trans reaches⟩

theorem movingPart_holds {s : Source} {span content : Span} {body : List Node}
    {directives : Option Span} {indent : Nat} (encloses : s.text.Encloses span body)
    (nested : Nested s.text (interior span).start body (interior span).stop)
    (moves : s.movingPart (.statements (interior span) directives) = some (content, indent)) :
    s.text.Holds content ∧ content.within (interior span) = true ∧
      ∀ n ∈ body, n.span.start < n.span.stop → n.span.within content = true := by
  obtain ⟨before, inner, after, whole, -, interior_eq⟩ := encloses.interior
  have place : interior span = ⟨Text.byteLength (before ++ ['{']),
      Text.byteLength (before ++ ['{']) + inner.byteLength⟩ := by
    rw [interior_eq, Text.byteLength_append]
    rfl
  have text : s.text = before ++ ['{'] ++ (inner ++ '}' :: after) := by simp [whole]
  obtain ⟨_, trimmed, same⟩ := Option.map_eq_some_iff.mp moves
  cases same
  obtain ⟨holds, inside⟩ := Text.trim_holds text place trimmed
  refine ⟨holds, inside, fun n member filled => ?_⟩
  obtain ⟨low, -, high⟩ := nested.bounds n member
  exact Text.trim_covers text place trimmed ((nested.mem member).1.solid filled)
    (Span.within_iff.mpr ⟨low, high⟩)

theorem directives_part {text : Text} {content directives : Span} {body : List Node} {lo hi : Nat}
    (holds : text.Holds content) (nested : Nested text lo body hi)
    (covers : ∀ n ∈ body, n.span.start < n.span.stop → n.span.within content = true)
    (opens : directiveSpan body = some directives) :
    text.Holds ⟨content.start, directives.stop⟩ ∧ text.Names ⟨directives.stop, content.stop⟩ := by
  obtain ⟨front, back, last, rfl, ending, directive, stop⟩ := directiveSpan_some opens
  have member := List.mem_append_left back (List.mem_of_getLast? ending)
  have stands := (nested.mem member).1
  have filled := stands.filled (by rw [directive]; rfl)
  have inside := covers last member filled
  rw [stop]
  constructor
  · exact holds.upto (stands.solid filled) inside
  · exact holds.past (stands.solid filled) inside

theorem ending_statements {s : Source} {span : Span} {body : List Node} {e : Ending}
    (encloses : s.text.Encloses span body)
    (nested : Nested s.text (interior span).start body (interior span).stop)
    (ends : s.ending (.statements (interior span) (directiveSpan body)) = some e) :
    s.text.Holds e.part ∧ e.part.within span = true ∧
      ∀ n ∈ body, n.span.start < n.span.stop →
        n.span.within e.part = true ∨ n.span.stop ≤ e.part.start := by
  have around : (interior span).within span = true := by
    obtain ⟨before, inner, after, -, span_eq, interior_eq⟩ := encloses.interior
    rw [Span.within_iff, interior_eq, span_eq]
    dsimp only
    omega
  have holds (n : Node) (member : n ∈ body) (filled : n.span.start < n.span.stop) :=
    (nested.mem member).1.solid filled
  obtain ⟨⟨content, _⟩, moves, ends⟩ := Option.bind_eq_some_iff.mp ends
  obtain ⟨rest, parted, ends⟩ := Option.bind_eq_some_iff.mp ends
  cases ends
  obtain ⟨contentHolds, contentInside, inContent⟩ := movingPart_holds encloses nested moves
  cases directives : directiveSpan body with
  | none =>
      rw [directives] at parted
      cases parted
      refine ⟨contentHolds, Span.within_trans contentInside around, fun n member filled => ?_⟩
      exact .inl (inContent n member filled)
  | some region =>
      rw [directives] at parted
      obtain ⟨front, back, last, rfl, ending, -, stop⟩ := directiveSpan_some directives
      have member := List.mem_append_left back (List.mem_of_getLast? ending)
      obtain ⟨frontNested, backNested⟩ := nested.split_last ending
      -- The text after the last directive, up to where the trimmed body stops.
      obtain ⟨-, ⟨before, part, after, text, place⟩⟩ :=
        directives_part contentHolds nested inContent directives
      obtain ⟨restHolds, restInside⟩ := Text.trim_holds text place parted
      rw [Span.within_iff] at restInside contentInside
      dsimp only at restInside
      refine ⟨restHolds, Span.within_trans (Span.within_iff.mpr ⟨?_, ?_⟩) around, ?_⟩
      · have bounds := nested.bounds last member
        dsimp only
        omega
      · exact Nat.le_trans restInside.2 contentInside.2
      · intro n inBody filled'
        rcases List.mem_append.mp inBody with inFront | inBack
        · refine .inr (Nat.le_trans (frontNested.bounds n inFront).2.2 ?_)
          rw [← stop]
          exact restInside.1
        · refine .inl (Text.trim_covers text place parted (holds n inBody filled') ?_)
          rw [Span.within_iff]
          refine ⟨?_, (Span.within_iff.mp (inContent n inBody filled')).2⟩
          rw [stop]
          exact (backNested.bounds n inBack).1

theorem ending_holds {s : Source} {call : Node} {body : ModuleBody} {e : Ending}
    (amd : isAmd call = true)
    (nested : Nested s.text call.span.start call.children call.span.stop)
    (found : moduleBody? call = some body) (ends : s.ending body = some e)
    (filled : e.part.start < e.part.stop) : s.text.Holds e.part := by
  cases body with
  | value value =>
      cases ends
      obtain ⟨factory, last, kind⟩ := moduleBody_value found
      obtain ⟨stands, inFactory⟩ := nested.mem (mem_children_of_getLast? amd last)
      rcases kind with rfl | ⟨span, parts, bodySpan, statement, n, rfl, ending, rfl⟩
      · exact stands.solid filled
      · obtain ⟨_, reaches⟩ := reaches_conciseValue ending
        exact (reaches.stands stands inFactory).1.solid filled
  | statements region directives =>
      obtain ⟨factory, heads, bodySpan, statements, hasBody, rfl, rfl⟩ :=
        moduleBody_statements amd nested found
      exact (ending_statements hasBody.encloses (hasBody.nested nested amd) ends).1

theorem Unwraps.converts {p : Position} {span : Span} {call : Node} {plan : Plan}
    (unwraps : job.Unwraps p call plan) :
    Converts job.root job.policy p.path (.mk .expressionStatement span [call]) := by
  obtain ⟨notes, decided⟩ := unwraps.decided
  exact ⟨span, call, notes, plan, rfl, unwraps.amd, unwraps.among, decided⟩

theorem Unwraps.searches {p : Position} {span : Span} {call factory : Node} {plan : Plan}
    (unwraps : job.Unwraps p call plan)
    (searches : job.Searches p (.mk .expressionStatement span [call]))
    (last : (arguments call).getLast? = some factory) :
    job.Searches ((job.within p span call plan).below call) factory := by
  obtain ⟨notes, decided⟩ := unwraps.decided
  have isCall := kind_of_isAmd unwraps.amd
  exact (searches.inside unwraps.amd unwraps.among decided).child
    (not_converts_of_kind (by rw [isCall]; nofun)) (not_returns_of_kind (by rw [isCall]; nofun))
    (mem_children_of_getLast? unwraps.amd last)

theorem Unwraps.moduleBody {p : Position} {call : Node} {plan : Plan}
    (unwraps : job.Unwraps p call plan) : moduleBody? call = some plan.body := by
  obtain ⟨notes, decided⟩ := unwraps.decided
  exact (decision_convert decided).1

theorem Unwraps.parted {p q : Position} {span : Span} {call factory k : Node} {plan : Plan}
    (unwraps : job.Unwraps p call plan) (last : (arguments call).getLast? = some factory)
    (visits : job.Visits ((job.within p span call plan).below call) factory q k)
    (nested : Nested text span.start [call] span.stop)
    (done : (job.search p (.mk .expressionStatement span [call])).failure = none) :
    PartedAt text span.start span.stop (job.foundIn p span call plan).edits k.span
      (job.search q k).edits := by
  obtain ⟨notes, decided⟩ := unwraps.decided
  obtain ⟨inside, -⟩ := search_converted done unwraps.amd unwraps.among decided
  have isCall := kind_of_isAmd unwraps.amd
  have member := List.mem_singleton_self call
  have through : job.Visits (job.within p span call plan) call q k :=
    .down (not_converts_of_kind (by rw [isCall]; nofun))
      (not_returns_of_kind (by rw [isCall]; nofun)) (mem_children_of_getLast? unwraps.amd last)
      visits
  obtain ⟨stands, inCall⟩ := nested.mem member
  exact (searchAll_parted nested inside member).trans
    (through.parted stands inCall (searchAll_failure.mp inside call member))

theorem Unwraps.image {p : Position} {span : Span} {call : Node} {plan : Plan}
    (unwraps : job.Unwraps p call plan)
    (done : (job.search p (.mk .expressionStatement span [call])).failure = none) :
    job.image (.searched p) (.mk .expressionStatement span [call]) =
      (job.source.separator span p.dedent).intercalate (job.texts p span call plan) := by
  obtain ⟨notes, decided⟩ := unwraps.decided
  obtain ⟨-, edits⟩ := search_converted done unwraps.amd unwraps.among decided
  rw [Job.image, editsIn, edits]
  apply Source.render_alone

namespace Comes

variable {w : Way} {p : Position} {n : Node} {before after : Text}

theorem searches (comes : job.Comes (.searched p) n before after) : job.Searches p n := by
  generalize way : Way.searched p = w at comes
  induction comes generalizing p with
  | top =>
      cases way
      exact .top
  | @child w n m _ _ _ stays member _ ih =>
      cases w with
      | searched p =>
          cases way
          exact (ih rfl).child stays.1 stays.2 member
      | copied dedent => cases way
  | returned _ _ _ _ => cases way
  | inside _ unwraps last visits _ _ _ _ ih =>
      cases way
      exact visits.searches (unwraps.searches (ih rfl) last)
  | parameter _ _ _ _ _ _ _ => cases way

theorem placed {mode : Mode} (comes : job.Comes w n before after)
    (parsed : readProgram mode job.source.text = .ok job.root) :
    (n = job.root ∨ n.Stands job.source.text ∧ n.span.start < n.span.stop) ∧
      Nested job.source.text n.span.start n.children n.span.stop := by
  induction comes with
  | top =>
      obtain ⟨body, same, nested⟩ := readProgram_nested parsed
      rw [same]
      exact ⟨.inl rfl, nested⟩
  | child _ _ member filled ih =>
      obtain ⟨stands, nested⟩ := ih.2.mem member
      exact ⟨.inr ⟨stands, filled⟩, nested⟩
  | returned _ _ filled ih =>
      obtain ⟨stands, nested⟩ := ih.2.mem (List.mem_singleton_self _)
      exact ⟨.inr ⟨stands, filled⟩, nested⟩
  | inside _ unwraps last visits filled _ _ _ ih =>
      obtain ⟨-, inCall⟩ := ih.2.mem (List.mem_singleton_self _)
      obtain ⟨stands, inFactory⟩ := inCall.mem (mem_children_of_getLast? unwraps.amd last)
      obtain ⟨above, reaches, -⟩ := visits.reaches
      obtain ⟨stands, nested⟩ := reaches.stands stands inFactory
      exact ⟨.inr ⟨stands, filled⟩, nested⟩
  | parameter _ _ reaches filled _ _ ih =>
      obtain ⟨stands, inCall⟩ := ih.2.mem (List.mem_singleton_self _)
      obtain ⟨stands, nested⟩ := reaches.stands stands inCall
      exact ⟨.inr ⟨stands, filled⟩, nested⟩

theorem names {mode : Mode} (comes : job.Comes w n before after)
    (parsed : readProgram mode job.source.text = .ok job.root) :
    job.source.text.Names n.span := by
  rcases (comes.placed parsed).1 with rfl | ⟨stands, filled⟩
  · obtain ⟨body, same, -⟩ := readProgram_nested parsed
    rw [same]
    exact ⟨[], job.source.text, [], by simp, by simp [Node.span, Text.byteLength]⟩
  · exact (stands.solid filled).names

/-- The output is what becomes of the node between the two texts. -/
theorem output_eq {mode : Mode} (comes : job.Comes w n before after)
    (parsed : readProgram mode job.source.text = .ok job.root)
    (done : (job.search .top job.root).failure = none) :
    job.image (.searched .top) job.root = before ++ (job.image w n ++ after) := by
  induction comes with
  | top => simp
  | @child w n m before after comes stays member filled ih =>
      obtain ⟨-, nested⟩ := comes.placed parsed
      obtain ⟨stands, -⟩ := nested.mem member
      obtain ⟨first, -, last⟩ := nested.bounds m member
      have parted := editsIn_parted stays member nested fun p way => by
        subst way
        exact comes.searches.done done
      have parts := parted.render w.dedent (comes.names parsed) (stands.solid filled)
        (by simp [Span.within, first, last])
      rw [ih, Job.image, Job.image, parts, Way.dedent_below]
      simp only [List.append_assoc]
  | @returned p span argument before after comes inside filled ih =>
      rw [ih, Job.image, Job.image, editsIn, search_returned inside, Source.returnEdit, Node.span,
        Source.render_alone, exportStatement_eq]
      simp [editsIn, Way.dedent, Node.span, List.append_assoc]
  | @inside p q span call factory k plan ending before after last texts comes unwraps ending_ visits
      filled found inside texts_eq ih =>
      have nested := (comes.placed parsed).2
      obtain ⟨-, inCall⟩ := nested.mem (List.mem_singleton_self call)
      obtain ⟨stands, inFactory⟩ := inCall.mem (mem_children_of_getLast? unwraps.amd ending_)
      obtain ⟨above, reaches, -⟩ := visits.reaches
      have holds := (reaches.stands stands inFactory).1.solid filled
      have wide : ending.part.start < ending.part.stop := by
        rw [Span.within_iff] at inside
        omega
      have parted := unwraps.parted ending_ visits nested (comes.searches.done done)
      have parts := parted.render q.dedent
        (ending_holds unwraps.amd inCall unwraps.moduleBody found wide).names holds inside
      have dedent : job.source.innerDedent span plan.body p.dedent = q.dedent :=
        visits.dedent_eq.symm
      obtain ⟨texts', ends⟩ := job.source.replacement_ending
        (job.foundIn p span call plan).edits span p.dedent found
      rw [Job.texts, ends] at texts_eq
      obtain ⟨-, same⟩ := List.append_inj' texts_eq rfl
      rw [List.singleton_inj] at same
      rw [ih, unwraps.image (comes.searches.done done), Job.texts, ends, texts_eq,
        intercalate_middle, ← same, dedent, parts, Job.image, editsIn, Way.dedent]
      simp only [List.flatMap_nil, List.append_nil, List.append_assoc]
  | @parameter p span call k plan path before after specifier texts later comes unwraps reaches
      filled received texts_eq ih =>
      have copied : job.image (.copied 0) k = job.source.slice k.span := by
        rw [Job.image, editsIn, Source.render_nil, Way.dedent, Source.copy_zero]
      rw [ih, unwraps.image (comes.searches.done done), texts_eq, intercalate_middle,
        requireStatement_some, copied]
      simp only [List.append_assoc]

end Comes

end Job

end AmdUnwrap
