import AmdUnwrap.Proofs.Literal

/-!
Which parts of a program are printed, and between which texts: the program itself, and of each call
that is replaced in a printed part its directives, the elements of its list, and the rest of its
body or its value; of a `return` of its factory the argument. A literal in one of them comes into
the output as it is.
-/

namespace AmdUnwrap
open Amd

/-- A statement of what replaces a call: text of the program, moved left, between two texts. -/
structure Piece where
  lead : Text
  part : Span
  dedent : Nat
  trail : Text

def requireLead : (pattern : Option Text) → Text
  | some pattern => bindingLead ++ pattern ++ " = require(".toList
  | none => "require(".toList

def requireTrail : Text := ");".toList

theorem requireStatement_eq (specifier : Text) (pattern : Option Text) :
    requireStatement specifier pattern = requireLead pattern ++ (specifier ++ requireTrail) := by
  cases pattern <;> exact List.append_assoc ..

namespace Source

variable {s : Source} {edits : List Edit}

def print (s : Source) (edits : List Edit) (piece : Piece) : Text :=
  piece.lead ++ (s.render piece.part edits piece.dedent ++ piece.trail)

def prologue (s : Source) (body : ModuleBody) : Option Span :=
  (s.movingPart body).bind fun (content, _) => (s.partedBody body content).1

def pieces (s : Source) (plan : Plan) (statement : Span) (dedent : Nat) : List Piece :=
  let inner := s.innerDedent statement plan.body dedent
  ((s.prologue plan.body).map fun part => ⟨[], part, inner, []⟩).toList ++
    plan.dependencies.map (fun dependency => ⟨requireLead (dependency.parameter.map s.slice),
      dependency.specifier, dedent, requireTrail⟩) ++
    ((s.ending plan.body).map fun e => ⟨e.lead, e.part, inner, e.trail⟩).toList

theorem prologue_mem {plan : Plan} {part : Span} (statement : Span) (dedent : Nat)
    (opens : s.prologue plan.body = some part) :
    ⟨[], part, s.innerDedent statement plan.body dedent, []⟩ ∈ s.pieces plan statement dedent := by
  rw [pieces, opens]
  exact List.mem_append_left _ (List.mem_append_left _ List.mem_cons_self)

theorem ending_mem {plan : Plan} {e : Ending} (statement : Span) (dedent : Nat)
    (ends : s.ending plan.body = some e) :
    ⟨e.lead, e.part, s.innerDedent statement plan.body dedent, e.trail⟩ ∈
      s.pieces plan statement dedent := by
  rw [pieces, ends]
  exact List.mem_append_right _ List.mem_cons_self

theorem requires_pieces (plan : Plan) (dedent : Nat) : s.requires plan edits dedent =
    (plan.dependencies.map fun dependency => (⟨requireLead (dependency.parameter.map s.slice),
      dependency.specifier, dedent, requireTrail⟩ : Piece)).map (s.print edits) := by
  rw [requires, List.map_map]
  apply List.map_congr_left
  intro dependency _
  exact requireStatement_eq _ _

theorem replacement_pieces (plan : Plan) (statement : Span) (dedent : Nat) :
    s.replacement plan edits dedent (s.innerDedent statement plan.body dedent) =
      (s.pieces plan statement dedent).map (s.print edits) := by
  rw [pieces, List.map_append, List.map_append, ← requires_pieces]
  cases body : plan.body with
  | value expression =>
      simp [replacement, body, prologue, movingPart, ending, print, innerDedent,
        exportStatement_eq]
  | statements region directives =>
      cases moves : s.movingPart (.statements region directives) with
      | none => simp [replacement, body, prologue, moves, ending]
      | some moving =>
          obtain ⟨content, indent⟩ := moving
          cases parted : s.partedBody (.statements region directives) content with
          | mk front back =>
              simp only [replacement, body, prologue, ending, moves, parted]
              cases front <;> cases back <;> simp [parted, print]

end Source

namespace Job

/-- A part of the program is printed with some of the edits that the search has found, moved left,
between two texts of the output. -/
inductive Prints (job : Job) : Span → List Edit → Nat → (before after : Text) → Prop where
  | program : job.Prints ⟨0, job.source.text.byteLength⟩ (job.search .top job.root).edits 0 [] []
  | piece {span statement : Span} {edits found : List Edit} {dedent : Nat} {before after : Text}
      {p : Position} {call : Node} {plan : Plan} {front back : List Piece} {piece : Piece}
      {separator : Text} :
      job.Prints span edits dedent before after →
      job.Searches p (.mk .expressionStatement statement [call]) → job.Unwraps p call plan →
      found = (job.foundIn p statement call plan).edits →
      separator = job.source.separator statement p.dedent →
      job.source.moduleEdit statement plan found p.dedent ∈ edits →
      statement.within span = true →
      job.source.pieces plan statement p.dedent = front ++ piece :: back →
      job.Prints piece.part found piece.dedent
        (before ++ (job.source.render ⟨span.start, statement.start⟩ edits dedent ++
          ((front.flatMap (job.source.print found · ++ separator)) ++ piece.lead)))
        (piece.trail ++ (back.flatMap (separator ++ job.source.print found ·) ++
          (job.source.render ⟨statement.stop, span.stop⟩ edits dedent ++ after)))
  | returned {span statement : Span} {edits : List Edit} {dedent : Nat} {before after : Text}
      {p : Position} {argument : Node} :
      job.Prints span edits dedent before after →
      job.Searches p (.mk .returnStatement statement [argument]) → p.inFactory = true →
      job.source.returnEdit statement argument.span p.dedent ∈ edits →
      statement.within span = true →
      job.Prints argument.span [] p.dedent
        (before ++ (job.source.render ⟨span.start, statement.start⟩ edits dedent ++ exportLead))
        (';' :: (job.source.render ⟨statement.stop, span.stop⟩ edits dedent ++ after))

end Job

namespace Apart

variable {text : Text} {lo hi : Nat} {edits first later : List Edit} {edit : Edit}

theorem around (apart : Apart text lo (first ++ edit :: later) hi) :
    Apart text lo first edit.span.start ∧ text.Holds edit.span ∧
      Apart text edit.span.stop later hi := by
  induction first generalizing lo with
  | nil =>
      cases apart with
      | cons start holds rest => exact ⟨.nil start, holds, rest⟩
  | cons other first ih =>
      cases apart with
      | cons start holds rest =>
          obtain ⟨front, found, back⟩ := ih rest
          exact ⟨.cons start holds front, found, back⟩

theorem holds (apart : Apart text lo edits hi) (member : edit ∈ edits) : text.Holds edit.span := by
  obtain ⟨first, later, rfl⟩ := List.append_of_mem member
  exact apart.around.2.1

theorem clear {part : Span} (apart : Apart text lo edits hi)
    (clear : ∀ edit ∈ edits, edit.span.stop ≤ part.start ∨ part.stop ≤ edit.span.start) :
    ∃ first later, edits = first ++ later ∧ Apart text (min lo part.start) first part.start ∧
      Apart text part.stop later (max hi part.stop) := by
  induction apart with
  | nil _ => exact ⟨[], [], rfl, .nil (Nat.min_le_right ..), .nil (Nat.le_max_right ..)⟩
  | @cons lo hi edit edits start holds rest ih =>
      rw [List.forall_mem_cons] at clear
      rcases clear.1 with before | after
      · obtain ⟨first, later, rfl, front, back⟩ := ih clear.2
        rw [Nat.min_eq_left before] at front
        exact ⟨edit :: first, later, rfl, .cons (by omega) holds front, back⟩
      · refine ⟨[], edit :: edits, rfl, .nil (Nat.min_le_right ..), .cons after holds ?_⟩
        exact rest.reach (Nat.le_max_left ..)

end Apart

namespace Source

variable {s : Source} {span part : Span} {edits : List Edit} {lo hi : Nat}

theorem render_edit {edit : Edit} (dedent : Nat) (names : s.text.Names span)
    (apart : Apart s.text lo edits hi) (member : edit ∈ edits)
    (inside : edit.span.within span = true) :
    s.render span edits dedent = s.render ⟨span.start, edit.span.start⟩ edits dedent ++
      (edit.text ++ s.render ⟨edit.span.stop, span.stop⟩ edits dedent) := by
  obtain ⟨first, later, rfl⟩ := List.append_of_mem member
  obtain ⟨front, holds, back⟩ := apart.around
  have alone : Apart s.text edit.span.start [edit] edit.span.stop :=
    .cons (Nat.le_refl _) holds (.nil (Nat.le_refl _))
  have parts := s.render_around dedent names holds inside front alone back
  rw [s.render_alone edit.span edit.text dedent] at parts
  exact parts

theorem render_filter (dedent : Nat) (inside : part.within span = true) :
    s.render part (edits.filter (·.span.within span)) dedent = s.render part edits dedent := by
  rw [render, render, List.filter_filter]
  congr 1
  apply List.filter_congr
  intro edit _
  cases within : edit.span.within part with
  | false => rfl
  | true => rw [Span.within_trans within inside, Bool.and_self]

theorem render_clear (dedent : Nat) (names : s.text.Names span) (apart : Apart s.text lo edits hi)
    (holds : s.text.Holds part) (inside : part.within span = true)
    (clear : ∀ edit ∈ edits, edit.span.within span = true →
      edit.span.stop ≤ part.start ∨ part.stop ≤ edit.span.start) :
    s.render span edits dedent = s.render ⟨span.start, part.start⟩ edits dedent ++
      (s.copy dedent part ++ s.render ⟨part.stop, span.stop⟩ edits dedent) := by
  have lt := holds.lt
  have around := Span.within_iff.mp inside
  obtain ⟨first, later, split, front, back⟩ :=
    (apart.filter (·.span.within span)).clear fun edit member =>
      clear edit (List.mem_filter.mp member).1 (List.mem_filter.mp member).2
  have parts := s.render_around dedent names holds inside front (.nil (Nat.le_of_lt lt)) back
  dsimp only at parts
  rw [List.nil_append, ← split, render_nil] at parts
  have whole : span.within span = true := Span.within_iff.mpr ⟨Nat.le_refl _, Nat.le_refl _⟩
  have left : (⟨span.start, part.start⟩ : Span).within span = true :=
    Span.within_iff.mpr ⟨Nat.le_refl _, by dsimp only; omega⟩
  have right : (⟨part.stop, span.stop⟩ : Span).within span = true :=
    Span.within_iff.mpr ⟨by dsimp only; omega, Nat.le_refl _⟩
  rwa [render_filter dedent whole, render_filter dedent left, render_filter dedent right] at parts

end Source

theorem Node.Reaches.in_text {root n : Node} {path : List Node} {mode : Mode} {text : Text}
    (reaches : Node.Reaches root path n) (parsed : readProgram mode text = .ok root) :
    n.span.within ⟨0, text.byteLength⟩ = true := by
  obtain ⟨body, same, nested⟩ := readProgram_nested parsed
  have within := (reaches.within (Node.Reaches.top.placed parsed).2).2
  rwa [same] at within

namespace Job

variable {job : Job} {mode : Mode} {p : Position} {statement : Span} {call : Node} {plan : Plan}

theorem prologue_holds {s : Source} {call : Node} {body : ModuleBody} {part : Span}
    (amd : isAmd call = true)
    (nested : Nested s.text call.span.start call.children call.span.stop)
    (found : moduleBody? call = some body) (opens : s.prologue body = some part) :
    s.text.Holds part := by
  obtain ⟨⟨content, indent⟩, moves, parted⟩ := Option.bind_eq_some_iff.mp opens
  cases body with
  | value expression => cases moves
  | statements region directives =>
      obtain ⟨factory, heads, bodySpan, statements, hasBody, rfl, rfl⟩ :=
        moduleBody_statements amd nested found
      have inBody := hasBody.nested nested amd
      obtain ⟨holds, -, covers⟩ := movingPart_holds hasBody.encloses inBody moves
      cases directives : directiveSpan statements with
      | none =>
          rw [directives] at parted
          cases parted
      | some region =>
          rw [directives] at parted
          cases parted
          exact (directives_part holds inBody covers directives).1

theorem listElements_reaches {root operand element : Node} {path : List Node}
    {elements : List Node} (reaches : Node.Reaches root path operand)
    (listed : listElements root operand = .ok elements) (member : element ∈ elements) :
    ∃ array above, Node.Reaches root (array :: above) element := by
  unfold listElements at listed
  split at listed
  · cases listed
    exact ⟨_, _, reaches.child member⟩
  next name span children =>
    split at listed
    next array found =>
      cases listed
      obtain ⟨declarator, first, declared⟩ := Option.bind_eq_some_iff.mp found
      obtain ⟨above, toDeclarator⟩ := Node.mem_preorder.mp (List.mem_of_find?_eq_some first)
      unfold declaredArray? at declared
      split at declared
      next binding _ _ items =>
        cases declared
        have toArray := toDeclarator.child (List.mem_cons_of_mem binding List.mem_cons_self)
        exact ⟨_, _, toArray.child member⟩
      · cases declared
    · cases listed
  · cases listed

theorem specifier_reaches {path : List Node} (reaches : Node.Reaches job.root path call)
    (unwraps : job.Unwraps p call plan) {dependency : Dependency}
    (member : dependency ∈ plan.dependencies) :
    ∃ array above element, Node.Reaches job.root (array :: above) element ∧
      element.span = dependency.specifier := by
  obtain ⟨notes, decided⟩ := unwraps.decided
  rcases decision_lists decided with ⟨-, empty⟩ |
    ⟨operand, others, factory, elements, split, -, listed, pairs⟩
  · rw [empty] at member
    cases member
  · rw [pairs, paired] at member
    simp only [List.mem_map, List.mem_filter] at member
    obtain ⟨⟨element, index⟩, ⟨indexed, -⟩, rfl⟩ := member
    obtain ⟨target, children⟩ := children_of_isAmd unwraps.amd
    have inCall : operand ∈ call.children := by
      rw [children, split]
      exact List.mem_cons_of_mem _ List.mem_cons_self
    obtain ⟨array, above, toElement⟩ := listElements_reaches (reaches.child inCall) listed
      (List.fst_mem_of_mem_zipIdx indexed)
    exact ⟨array, above, element, toElement, rfl⟩

theorem specifier_holds (searches : job.Searches p (.mk .expressionStatement statement [call]))
    (unwraps : job.Unwraps p call plan)
    (parsed : readProgram mode job.source.text = .ok job.root) {dependency : Dependency}
    (member : dependency ∈ plan.dependencies)
    (filled : dependency.specifier.start < dependency.specifier.stop) :
    job.source.text.Holds dependency.specifier := by
  have toCall := searches.reaches.child (List.mem_singleton_self call)
  obtain ⟨array, above, element, toElement, span⟩ := specifier_reaches toCall unwraps member
  obtain ⟨toArray, inArray⟩ := toElement.parent
  rw [← span] at filled ⊢
  exact ((toArray.placed parsed).2.mem inArray).1.solid filled

theorem pieces_holds (searches : job.Searches p (.mk .expressionStatement statement [call]))
    (unwraps : job.Unwraps p call plan)
    (parsed : readProgram mode job.source.text = .ok job.root) {dedent : Nat} {piece : Piece}
    (member : piece ∈ job.source.pieces plan statement dedent)
    (filled : piece.part.start < piece.part.stop) : job.source.text.Holds piece.part := by
  obtain ⟨-, nested⟩ := (searches.placed parsed).nested.mem (List.mem_singleton_self call)
  unfold Source.pieces at member
  rcases List.mem_append.mp member with member | last
  · rcases List.mem_append.mp member with first | middle
    · rw [Option.mem_toList, Option.map_eq_some_iff] at first
      obtain ⟨part, opens, rfl⟩ := first
      exact prologue_holds unwraps.amd nested unwraps.moduleBody opens
    · obtain ⟨dependency, inList, rfl⟩ := List.mem_map.mp middle
      exact specifier_holds searches unwraps parsed inList filled
  · rw [Option.mem_toList, Option.map_eq_some_iff] at last
    obtain ⟨e, ends, rfl⟩ := last
    exact ending_holds unwraps.amd nested unwraps.moduleBody ends filled

theorem Unwraps.foundIn (unwraps : job.Unwraps p call plan)
    (searches : job.Searches p (.mk .expressionStatement statement [call]))
    (done : (job.search .top job.root).failure = none) :
    job.Searches (job.within p statement call plan) call ∧
      (job.foundIn p statement call plan).failure = none ∧
      (job.foundIn p statement call plan).edits =
        (job.search (job.within p statement call plan) call).edits := by
  obtain ⟨notes, decided⟩ := unwraps.decided
  obtain ⟨inside, -⟩ := search_converted (searches.done done) unwraps.amd unwraps.among decided
  refine ⟨searches.inside unwraps.amd unwraps.among decided, inside, ?_⟩
  exact (searchAll_edits inside).trans (List.flatMap_singleton ..)

theorem Unwraps.plan_eq {plan' : Plan} (unwraps : job.Unwraps p call plan)
    (unwraps' : job.Unwraps p call plan') : plan = plan' := by
  obtain ⟨notes, decided⟩ := unwraps.decided
  obtain ⟨notes', decided'⟩ := unwraps'.decided
  cases decided.symm.trans decided'
  rfl

/-- The edit that the search makes of a statement that it replaces. -/
inductive Makes (job : Job) (p : Position) : Node → Edit → Prop where
  | module {statement : Span} {call : Node} {plan : Plan} : job.Unwraps p call plan →
      Makes job p (.mk .expressionStatement statement [call])
        (job.source.moduleEdit statement plan (job.foundIn p statement call plan).edits p.dedent)
  | value {statement : Span} {argument : Node} : p.inFactory = true →
      Makes job p (.mk .returnStatement statement [argument])
        (job.source.returnEdit statement argument.span p.dedent)

theorem Makes.span {n : Node} {edit : Edit} (makes : job.Makes p n edit) : n.span = edit.span := by
  cases makes <;> rfl

theorem Makes.replaces {n : Node} {edit : Edit} (makes : job.Makes p n edit) :
    job.Replaces p n := by
  cases makes with
  | module unwraps => exact .inl unwraps.converts
  | value inFactory => exact .inr ⟨_, _, rfl, inFactory⟩

/-- What is printed of a statement that is replaced, and how far it moves. -/
inductive Retains (job : Job) (p : Position) : Node → Span → Nat → Prop where
  | piece {statement : Span} {call : Node} {plan : Plan} {piece : Piece} :
      job.Unwraps p call plan → piece ∈ job.source.pieces plan statement p.dedent →
      Retains job p (.mk .expressionStatement statement [call]) piece.part piece.dedent
  | value {statement : Span} {argument : Node} : p.inFactory = true →
      Retains job p (.mk .returnStatement statement [argument]) argument.span p.dedent

def IsElement (job : Job) (part : Span) : Prop :=
  ∃ p statement call plan dependency,
    job.Searches p (.mk .expressionStatement statement [call]) ∧ job.Unwraps p call plan ∧
      dependency ∈ plan.dependencies ∧ dependency.specifier = part

theorem search_makes {n : Node} (done : (job.search p n).failure = none) :
    ∀ edit ∈ (job.search p n).edits, ∃ q k, job.Visits p n q k ∧ job.Makes q k edit := by
  induction n using Node.induction generalizing p with
  | step n ih =>
      intro edit member
      rcases search_cases done with ⟨statement, call, notes, plan, rfl, amd, among, decided, -,
        edits⟩ | ⟨statement, argument, rfl, inFactory, edits⟩ | ⟨still, quiet, done', edits⟩
      · rw [edits, List.mem_singleton] at member
        subst member
        exact ⟨p, _, .here, .module ⟨amd, among, notes, decided⟩⟩
      · rw [edits, List.mem_singleton] at member
        subst member
        exact ⟨p, _, .here, .value inFactory⟩
      · rw [edits, searchAll_edits done', List.mem_flatMap] at member
        obtain ⟨m, child, member⟩ := member
        obtain ⟨q, k, visits, makes⟩ :=
          ih m child (searchAll_failure.mp done' m child) edit member
        exact ⟨q, k, .down still quiet child visits, makes⟩

theorem Unwraps.foundIn_stop (unwraps : job.Unwraps p call plan)
    (searches : job.Searches p (.mk .expressionStatement statement [call]))
    (parsed : readProgram mode job.source.text = .ok job.root)
    (done : (job.search .top job.root).failure = none) :
    ∀ edit ∈ (job.foundIn p statement call plan).edits, edit.span.stop < call.span.stop := by
  intro edit member
  obtain ⟨inside, -, same⟩ := unwraps.foundIn searches done
  rw [same] at member
  obtain ⟨q, k, visits, makes⟩ := search_makes (inside.done done) edit member
  obtain ⟨above, reaches, -⟩ := visits.reaches
  obtain ⟨stands, nested⟩ := (searches.placed parsed).nested.mem (List.mem_singleton_self call)
  have isCall := kind_of_isAmd unwraps.amd
  rw [← makes.span]
  rcases reaches.down with rfl | ⟨m, child, below, lower⟩
  · cases makes <;> cases isCall
  · have closed := stands.closed isCall m child
    have within := Span.within_iff.mp (lower.within (nested.mem child).2).2
    omega

namespace Prints

variable {span : Span} {edits : List Edit} {dedent : Nat} {before after : Text}

theorem makes_moving (prints : job.Prints span edits dedent before after)
    (done : (job.search .top job.root).failure = none) :
    ∀ edit ∈ edits, ∃ q k, job.Searches q k ∧ job.Makes q k edit ∧
      (q.dedent = dedent ∨ job.IsElement span) := by
  have from_search {q : Position} {k : Node} (searches : job.Searches q k) (edit : Edit)
      (member : edit ∈ (job.search q k).edits) :
      ∃ q' k, job.Searches q' k ∧ job.Makes q' k edit ∧ q'.dedent = q.dedent := by
    obtain ⟨q', k', visits, makes⟩ := search_makes (searches.done done) edit member
    exact ⟨q', k', visits.searches searches, makes, visits.dedent_eq⟩
  cases prints with
  | program =>
      intro edit member
      obtain ⟨q, k, searches, makes, same⟩ := from_search .top edit member
      exact ⟨q, k, searches, makes, .inl same⟩
  | @piece _ statement _ _ _ _ _ p call plan front back piece _ _ searches unwraps found _ _ _
      split =>
      obtain ⟨inside, -, same⟩ := unwraps.foundIn searches done
      rw [found, same]
      intro edit member
      obtain ⟨q, k, searches', makes, moves⟩ := from_search inside edit member
      have inPieces : piece ∈ job.source.pieces plan statement p.dedent := by
        rw [split]
        exact List.mem_append_right _ List.mem_cons_self
      refine ⟨q, k, searches', makes, ?_⟩
      rw [moves]
      simp only [Source.pieces, List.mem_append, Option.mem_toList, Option.map_eq_some_iff,
        List.mem_map] at inPieces
      rcases inPieces with (⟨_, -, rfl⟩ | ⟨dependency, listed, rfl⟩) | ⟨_, -, rfl⟩
      · exact .inl rfl
      · exact .inr ⟨p, statement, call, plan, dependency, searches, unwraps, listed, rfl⟩
      · exact .inl rfl
  | returned => exact nofun

theorem makes (prints : job.Prints span edits dedent before after)
    (done : (job.search .top job.root).failure = none) :
    ∀ edit ∈ edits, ∃ q k, job.Searches q k ∧ job.Makes q k edit := by
  intro edit member
  obtain ⟨q, k, searches, makes, -⟩ := prints.makes_moving done edit member
  exact ⟨q, k, searches, makes⟩

theorem apart (prints : job.Prints span edits dedent before after)
    (parsed : readProgram mode job.source.text = .ok job.root)
    (done : (job.search .top job.root).failure = none) :
    ∃ lo hi, Apart job.source.text lo edits hi := by
  cases prints with
  | program => exact ⟨_, _, (program_edits parsed done).1⟩
  | piece _ searches unwraps found =>
      obtain ⟨-, inside, -⟩ := unwraps.foundIn searches done
      rw [found]
      exact ⟨_, _, edits_apart (searches.placed parsed).nested inside⟩
  | returned => exact ⟨0, 0, .nil (Nat.le_refl 0)⟩

theorem names (prints : job.Prints span edits dedent before after)
    (parsed : readProgram mode job.source.text = .ok job.root)
    (filled : span.start < span.stop) : job.source.text.Names span := by
  cases prints with
  | program => exact ⟨[], job.source.text, [], by simp, by simp [Text.byteLength]⟩
  | @piece _ statement _ _ _ _ _ p _ plan _ _ piece _ _ searches unwraps _ _ _ _ split =>
      have member : piece ∈ job.source.pieces plan statement p.dedent := by
        rw [split]
        exact List.mem_append_right _ List.mem_cons_self
      exact (pieces_holds searches unwraps parsed member filled).names
  | returned _ searches =>
      have inside := (searches.placed parsed).nested.mem (List.mem_singleton_self _)
      exact (inside.1.solid filled).names

theorem render_edit (prints : job.Prints span edits dedent before after)
    (parsed : readProgram mode job.source.text = .ok job.root)
    (done : (job.search .top job.root).failure = none) {edit : Edit} (member : edit ∈ edits)
    (inside : edit.span.within span = true) : job.source.render span edits dedent =
      job.source.render ⟨span.start, edit.span.start⟩ edits dedent ++
        (edit.text ++ job.source.render ⟨edit.span.stop, span.stop⟩ edits dedent) := by
  obtain ⟨lo, hi, apart⟩ := prints.apart parsed done
  have bounds := apart.bounds edit member
  have around := Span.within_iff.mp inside
  exact Source.render_edit dedent (prints.names parsed (by omega)) apart member inside

theorem output_eq (prints : job.Prints span edits dedent before after)
    (parsed : readProgram mode job.source.text = .ok job.root)
    (done : (job.search .top job.root).failure = none) :
    job.source.render ⟨0, job.source.text.byteLength⟩ (job.search .top job.root).edits 0 =
      before ++ (job.source.render span edits dedent ++ after) := by
  induction prints with
  | program => simp
  | @piece span statement edits found dedent before after p call plan front back piece separator
      prints _ _ _ separator_eq member inside split ih =>
      have text : (job.source.moduleEdit statement plan found p.dedent).text =
          front.flatMap (job.source.print found · ++ separator) ++
            (job.source.print found piece ++
              back.flatMap (separator ++ job.source.print found ·)) := by
        calc (job.source.moduleEdit statement plan found p.dedent).text
            = separator.intercalate ((job.source.pieces plan statement p.dedent).map
                (job.source.print found)) := by
              rw [← Source.replacement_pieces, separator_eq]
              rfl
          _ = _ := by
              rw [split, List.map_append, List.map_cons, intercalate_middle, List.flatMap_map,
                List.flatMap_map]
      rw [ih, prints.render_edit parsed done member inside, text, Source.print]
      simp only [Source.moduleEdit, List.append_assoc]
  | @returned span statement edits dedent before after p argument prints _ _ member inside ih =>
      rw [ih, prints.render_edit parsed done member inside, Source.returnEdit, exportStatement_eq]
      simp only [List.append_assoc, List.cons_append, List.nil_append]

theorem ending {e : Ending} (prints : job.Prints span edits dedent before after)
    (searches : job.Searches p (.mk .expressionStatement statement [call]))
    (unwraps : job.Unwraps p call plan)
    (member : job.source.moduleEdit statement plan (job.foundIn p statement call plan).edits
      p.dedent ∈ edits) (within : statement.within span = true)
    (ends : job.source.ending plan.body = some e) :
    ∃ before after, job.Prints e.part (job.foundIn p statement call plan).edits
      (job.source.innerDedent statement plan.body p.dedent) before after := by
  obtain ⟨front, back, split⟩ :=
    List.append_of_mem (job.source.ending_mem statement p.dedent ends)
  exact ⟨_, _, .piece prints searches unwraps rfl rfl member within split⟩

theorem of_program {top : Span} {body : List Node} {e : Ending}
    (program : job.root = .mk .program top body)
    (parsed : readProgram mode job.source.text = .ok job.root)
    (done : (job.search .top job.root).failure = none)
    (member : .mk .expressionStatement statement [call] ∈ body) (amd : isAmd call = true)
    (decided : ∃ notes, decision job.root job.policy call = .convert notes plan)
    (ends : job.source.ending plan.body = some e) :
    ∃ before after, job.Prints e.part
      (job.foundIn (Position.top.below job.root) statement call plan).edits
      (job.source.innerDedent statement plan.body 0) before after := by
  have still : ¬ Converts job.root job.policy [] job.root :=
    not_converts_of_kind (by rw [program]; nofun)
  have child : .mk .expressionStatement statement [call] ∈ job.root.children := by
    rw [program]
    exact member
  have visits : job.Visits .top job.root (Position.top.below job.root)
      (.mk .expressionStatement statement [call]) :=
    .down still (not_returns rfl job.root) child .here
  have searches := visits.searches .top
  have among : (Position.top.below job.root).amongStatements = true := by
    rw [program]
    rfl
  have unwraps : job.Unwraps (Position.top.below job.root) call plan := ⟨amd, among, decided⟩
  obtain ⟨notes, decided⟩ := decided
  obtain ⟨-, edits⟩ := search_converted (searches.done done) amd among decided
  have found := visits.found done _ (edits ▸ List.mem_singleton_self _)
  exact Prints.program.ending searches unwraps found (searches.reaches.in_text parsed) ends

end Prints

/-- No statement in the node is replaced. -/
def Untouched (job : Job) (n : Node) : Prop :=
  ∀ below k, Node.Reaches n below k → ∀ q, job.Searches q k → ¬ job.Replaces q k

theorem untouched_of_childless {n : Node} (childless : n.children = [])
    (statement : n.kind ≠ .expressionStatement) (return_ : n.kind ≠ .returnStatement) :
    job.Untouched n := by
  intro below k lower q _ replaces
  rcases lower.down with rfl | ⟨m, member, -⟩
  · exact replaces.elim (not_converts_of_kind statement) (not_returns_of_kind return_)
  · rw [childless] at member
    cases member

/-- The node is in a part that is printed, outside of the statements that are replaced there. -/
def Shows (span : Span) (edits : List Edit) (n : Node) : Prop :=
  n.span.within span = true ∧
    ∀ edit ∈ edits, edit.span.within span = true → n.span.within edit.span = false

/-- The node is in a call that is replaced where it is printed, outside of its directives, the
elements of its list, and the rest of its body or its value. -/
def Discards (job : Job) (n : Node) : Prop :=
  ∃ span edits dedent before after p statement call plan below,
    job.Prints span edits dedent before after ∧
    job.Searches p (.mk .expressionStatement statement [call]) ∧ job.Unwraps p call plan ∧
    job.source.moduleEdit statement plan (job.foundIn p statement call plan).edits p.dedent ∈
      edits ∧ statement.within span = true ∧ Node.Reaches call below n ∧
    ∀ piece ∈ job.source.pieces plan statement p.dedent, n.span.within piece.part = false

namespace Prints

variable {span : Span} {edits : List Edit} {dedent : Nat} {before after : Text} {n : Node}
  {path : List Node}

theorem below_replaced {q : Position} {k : Node} {common : Span}
    (parsed : readProgram mode job.source.text = .ok job.root)
    (reaches : Node.Reaches job.root path n) (untouched : job.Untouched n)
    (searches : job.Searches q k) (replaces : job.Replaces q k)
    (filled : common.start < common.stop) (inNode : common.within n.span = true)
    (inReplaced : common.within k.span = true) : ∃ m ∈ k.children, ∃ below,
      Node.Reaches m below n := by
  have nested : Nested job.source.text job.root.span.start job.root.children
      job.root.span.stop := (Node.Reaches.top.placed parsed).2
  rcases reaches.comparable searches.reaches nested filled inNode inReplaced with
    ⟨below, lower⟩ | ⟨below, lower⟩
  · rcases lower.down with rfl | further
    · exact absurd replaces (untouched [] n .top q searches)
    · exact further
  · exact absurd replaces (untouched below k lower q searches)

theorem clear (prints : job.Prints span edits dedent before after)
    (parsed : readProgram mode job.source.text = .ok job.root)
    (done : (job.search .top job.root).failure = none)
    (reaches : Node.Reaches job.root path n) (untouched : job.Untouched n)
    (shows_ : Shows span edits n) (filled : n.span.start < n.span.stop) :
    ∀ edit ∈ edits, edit.span.within span = true →
      edit.span.stop ≤ n.span.start ∨ n.span.stop ≤ edit.span.start := by
  intro edit member inside
  obtain ⟨q, k, searches, makes⟩ := prints.makes done edit member
  obtain ⟨lo, hi, apart⟩ := prints.apart parsed done
  have bounds := apart.bounds edit member
  by_contra overlap
  rw [not_or, Nat.not_le, Nat.not_le] at overlap
  rw [← makes.span] at overlap bounds
  let common : Span := ⟨max n.span.start k.span.start, min n.span.stop k.span.stop⟩
  have inNode : common.within n.span = true :=
    Span.within_iff.mpr ⟨Nat.le_max_left .., Nat.min_le_left ..⟩
  have inEdit : common.within k.span = true :=
    Span.within_iff.mpr ⟨Nat.le_max_right .., Nat.min_le_right ..⟩
  have some : common.start < common.stop := by
    simp only [common]
    omega
  obtain ⟨m, child, below, lower⟩ :=
    below_replaced parsed reaches untouched searches makes.replaces some inNode inEdit
  have within := ((Node.Reaches.top.child child).trans lower).within (searches.placed parsed).nested
  rw [makes.span, shows_.2 edit member inside] at within
  cases within.2

/-- What is in a part that is printed is in one where no edit covers it, or an edit covers it and it
is in nothing that is printed of the statement. -/
theorem descends (prints : job.Prints span edits dedent before after)
    (In : Span → Nat → Prop) (Covers : Span → Prop)
    (parsed : readProgram mode job.source.text = .ok job.root)
    (done : (job.search .top job.root).failure = none) (inside : In span dedent) {hi : Nat}
    (bounds : ∀ edit ∈ edits, edit.span.stop ≤ hi) :
    ∃ span edits dedent before after, job.Prints span edits dedent before after ∧
      In span dedent ∧
      ((∀ edit ∈ edits, edit.span.within span = true → ¬ Covers edit.span) ∨
        ∃ edit ∈ edits, edit.span.within span = true ∧ Covers edit.span ∧
          ∃ q k, job.Searches q k ∧ job.Makes q k edit ∧ (q.dedent = dedent ∨ job.IsElement span) ∧
            ∀ part width, job.Retains q k part width → ¬ In part width) := by
  -- The edits inside of a call stop before its own does, so the induction is on where they stop.
  induction hi using Nat.strongRecOn generalizing span edits dedent before after with
  | ind hi ih =>
      by_cases covered : ∃ edit ∈ edits, edit.span.within span = true ∧ Covers edit.span
      case neg =>
        refine ⟨_, _, _, _, _, prints, inside, .inl fun edit member within covers => ?_⟩
        exact covered ⟨edit, member, within, covers⟩
      obtain ⟨edit, member, within, covers⟩ := covered
      obtain ⟨q, k, searches, makes, moves⟩ := prints.makes_moving done edit member
      by_cases retained : ∃ part width, job.Retains q k part width ∧ In part width
      case neg =>
        refine ⟨_, _, _, _, _, prints, inside, .inr ⟨edit, member, within, covers, q, k, searches,
          makes, moves, fun part width retains inPart => ?_⟩⟩
        exact retained ⟨part, width, retains, inPart⟩
      obtain ⟨part, width, retains, inPart⟩ := retained
      cases makes with
      | value inFactory =>
          cases retains
          exact ⟨_, _, _, _, _, .returned prints searches inFactory member within, inPart,
            .inl nofun⟩
      | @module statement call plan unwraps =>
          cases retains with
          | piece unwraps' inPieces =>
              obtain rfl := unwraps'.plan_eq unwraps
              obtain ⟨front, back, split⟩ := List.append_of_mem inPieces
              obtain ⟨lo, hi', apart⟩ := prints.apart parsed done
              have filled := (apart.bounds _ member).2.1
              have last := bounds _ member
              have stops := unwraps.foundIn_stop searches parsed done
              have inStatement : call.span.stop ≤ statement.stop :=
                ((searches.placed parsed).nested.bounds call (List.mem_singleton_self call)).2.2
              dsimp only [Source.moduleEdit] at filled last
              apply ih (statement.stop - 1) (by omega)
                (.piece prints searches unwraps rfl rfl member within split) inPart
              intro other found
              have lt := stops other found
              omega

theorem shows_or_discards (prints : job.Prints span edits dedent before after)
    (parsed : readProgram mode job.source.text = .ok job.root)
    (done : (job.search .top job.root).failure = none)
    (reaches : Node.Reaches job.root path n) (untouched : job.Untouched n)
    (filled : n.span.start < n.span.stop) (inside : n.span.within span = true) {hi : Nat}
    (bounds : ∀ edit ∈ edits, edit.span.stop ≤ hi) :
    (∃ span edits dedent before after, job.Prints span edits dedent before after ∧
      Shows span edits n) ∨ job.Discards n := by
  obtain ⟨_, _, _, _, _, prints, inside, clear | ⟨edit, member, within, covers, q, k, searches,
      makes, -, others⟩⟩ :=
    prints.descends (fun part _ => n.span.within part = true)
      (fun part => n.span.within part = true) parsed done inside bounds
  · refine .inl ⟨_, _, _, _, _, prints, inside, fun edit member within => ?_⟩
    exact Bool.eq_false_iff.mpr (clear edit member within)
  · have self : n.span.within n.span = true :=
      Span.within_iff.mpr ⟨Nat.le_refl _, Nat.le_refl _⟩
    rw [← makes.span] at covers
    obtain ⟨m, child, below, lower⟩ :=
      below_replaced parsed reaches untouched searches makes.replaces filled self covers
    have nested := (searches.placed parsed).nested
    cases makes with
    | value inFactory =>
        obtain rfl := List.mem_singleton.mp child
        have inArgument := (lower.within (nested.mem child).2).2
        exact absurd inArgument (others _ _ (.value inFactory))
    | @module statement call plan unwraps =>
        obtain rfl := List.mem_singleton.mp child
        refine .inr ⟨_, _, _, _, _, q, statement, m, plan, below, prints, searches, unwraps,
          member, within, lower, fun piece inPieces => ?_⟩
        exact Bool.eq_false_iff.mpr (others _ _ (.piece unwraps inPieces))

end Prints
end Job

/-- A literal that nothing is replaced in comes into the output as it is, between what is printed
before it and after it, wherever a part that shows it is printed. -/
theorem convert_keeps_literals {options : Options} {text output : Text} {root n : Node}
    {path : List Node} (converted : convert options text = .ok output)
    (parsed : readProgram options.mode text = .ok root) (reaches : Node.Reaches root path n)
    (literal : n.isLiteral = true) :
    let job : Job := ⟨root, .ofProgram text root, options.policy⟩
    job.Untouched n →
      (∀ span edits dedent before after, job.Prints span edits dedent before after →
        Job.Shows span edits n →
        output = before ++ (job.source.render ⟨span.start, n.span.start⟩ edits dedent ++
          (text.slice n.span ++
            (job.source.render ⟨n.span.stop, span.stop⟩ edits dedent ++ after)))) ∧
      ((∃ span edits dedent before after, job.Prints span edits dedent before after ∧
        Job.Shows span edits n) ∨ job.Discards n) := by
  intro job untouched
  obtain ⟨_, parsed', done, rfl⟩ := convert_ok converted
  cases parsed.symm.trans parsed'
  have whole : job.Prints ⟨0, text.byteLength⟩ (job.search .top root).edits 0 [] [] := .program
  have stands : n.Stands text := by
    apply (reaches.placed parsed).1
    intro program
    simp [Node.isLiteral, program] at literal
  have filled := stands.literal_filled literal
  have holds := stands.solid filled
  constructor
  · intro span edits dedent before after prints shows_
    obtain ⟨lo, hi, apart⟩ := prints.apart parsed done
    have around := Span.within_iff.mp shows_.1
    have parts := Source.render_clear dedent (prints.names parsed (by omega)) apart holds shows_.1
      (prints.clear parsed done reaches untouched shows_ filled)
    have copied : job.source.copy dedent n.span = text.slice n.span := by
      apply stands.copy_literal literal
      intro verbatim
      exact List.mem_map_of_mem
        (List.mem_filter.mpr ⟨Node.mem_preorder.mpr ⟨path, reaches⟩, verbatim⟩)
    rw [copied] at parts
    calc job.source.render ⟨0, text.byteLength⟩ (job.search .top root).edits 0
        = before ++ (job.source.render span edits dedent ++ after) :=
          prints.output_eq parsed done
      _ = _ := by
          rw [parts]
          simp only [List.append_assoc]
  · obtain ⟨lo, hi, apart⟩ := whole.apart parsed done
    apply whole.shows_or_discards parsed done reaches untouched filled (reaches.in_text parsed)
    exact fun edit member => (apart.bounds edit member).2.2

theorem template_module {text : Text}
    (same : text = "define(function () \x7b\n  f(`\n  b`);\n\x7d);".toList) :
    ((readProgram .global text).toOption.any fun root =>
      match root with
      | .mk .program _ [.mk .expressionStatement statement [call]] =>
        let job : Job := ⟨root, .ofProgram text root, .abort⟩
        isAmd call && match decision root .abort call with
        | .convert _ plan =>
          (job.foundIn (Position.top.below root) statement call plan).edits.isEmpty &&
          job.source.innerDedent statement plan.body 0 == 2 &&
          match job.source.ending plan.body, call with
          | some e, .mk .call _ [_, .mk _ _ [_, .mk _ _ [.mk _ _ [.mk _ _ [_,
              .mk .template place []]]]]] =>
            place.within e.part && text.slice place == "`\n  b`".toList
          | _, _ => false
        | _ => false
      | _ => false) = true := by
  subst same
  decide +kernel

theorem convert_keeps_template :
    let text : Text := "define(function () \x7b\n  f(`\n  b`);\n\x7d);".toList
    let output : Text := "f(`\n  b`);".toList
    convert {} text = .ok output ∧ ∃ (job : Job) (n : Node) (span : Span) (before after : Text),
      readProgram .global text = .ok job.root ∧ n.isLiteral = true ∧ job.Untouched n ∧
      job.Prints span [] 2 before after ∧ Job.Shows span [] n ∧
      text.slice n.span = "`\n  b`".toList ∧
      output = before ++ (job.source.render ⟨span.start, n.span.start⟩ [] 2 ++
        (text.slice n.span ++ (job.source.render ⟨n.span.stop, span.stop⟩ [] 2 ++ after))) := by
  intro text output
  have converted : convert {} text = .ok output := ok_of_toOption (by decide +kernel)
  refine ⟨converted, ?_⟩
  obtain ⟨root, parsed, done, -⟩ := convert_ok converted
  have shape := template_module (rfl : text = _)
  have parsed' : readProgram .global text = .ok root := parsed
  rw [parsed'] at shape
  simp only [Except.toOption, Option.any_some] at shape
  split at shape
  next programSpan statement call =>
    rw [Bool.and_eq_true] at shape
    obtain ⟨amd, shape⟩ := shape
    split at shape
    next notes plan decided =>
      simp only [Bool.and_eq_true, List.isEmpty_iff, beq_iff_eq] at shape
      obtain ⟨⟨found, dedent⟩, shape⟩ := shape
      split at shape
      next e callSpan name kind functionSpan parameters bodyKind bodySpan kind' span' kind'' span''
          callee place ends =>
        simp only [Bool.and_eq_true, beq_iff_eq] at shape
        obtain ⟨inside, slice⟩ := shape
        generalize callEq : Node.mk .call callSpan _ = call at *
        generalize top : Node.mk .program programSpan [.mk .expressionStatement statement [call]] =
          root at *
        let job : Job := ⟨root, .ofProgram text root, .abort⟩
        let template : Node := .mk .template place []
        obtain ⟨path, reaches⟩ : ∃ path, Node.Reaches root path template := by
          rw [← Node.mem_preorder, ← top, ← callEq]
          simp [Node.preorder, Node.preorderAll, template]
        have untouched : job.Untouched template :=
          Job.untouched_of_childless rfl (by rintro ⟨⟩) (by rintro ⟨⟩)
        have program : job.root = .mk .program programSpan _ := top.symm
        obtain ⟨before, after, prints⟩ := Job.Prints.of_program program parsed done
          (List.mem_singleton_self _) amd ⟨notes, decided⟩ ends
        rw [found, dedent] at prints
        have shows_ : Job.Shows e.part [] template := ⟨inside, by simp⟩
        obtain ⟨kept, -⟩ := convert_keeps_literals converted parsed reaches rfl untouched
        exact ⟨job, template, e.part, before, after, parsed, rfl, untouched, prints, shows_, slice,
          kept _ _ _ _ _ prints shows_⟩
      · cases shape
    · cases shape
  · cases shape

end AmdUnwrap
