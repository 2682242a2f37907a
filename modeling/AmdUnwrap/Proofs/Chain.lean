import AmdUnwrap.Proofs.Comment
import AmdUnwrap.Proofs.LineStart

/-!
Modules in modules, each on a line of its own in the body of the one around it and as deep as that
body. Where one of them is printed, its lines come out as deep as the line of the outermost,
whatever the steps between them were.
-/

namespace AmdUnwrap
open Amd

/-- In the output stands a line so deep where the one text goes on as the other. -/
def Text.LinesUp (output : Text) (width : Nat) (before shown : Text) : Prop :=
  output = before ++ shown ∧ indentWidth (before.lastLine ++ shown) = width

structure Converted where
  position : Position
  statement : Span
  call : Node
  plan : Plan

def Converted.node (m : Converted) : Node := .mk .expressionStatement m.statement [m.call]

namespace Job

/-- A part of the program that is printed, and what is printed around it. -/
structure Part (job : Job) where
  span : Span
  edits : List Edit
  dedent : Nat
  before : Text
  after : Text
  prints : job.Prints span edits dedent before after

variable {job : Job} {mode : Mode} {m k : Converted} {width start depth : Nat} {output : Text}

namespace Part

def ahead (part : job.Part) (offset : Nat) : Text :=
  part.before ++ job.source.render ⟨part.span.start, offset⟩ part.edits part.dedent

def behind (part : job.Part) (offset : Nat) : Text :=
  job.source.render ⟨offset, part.span.stop⟩ part.edits part.dedent ++ part.after

structure Holds (part : job.Part) (start depth : Nat) : Prop where
  low : part.span.start < start
  high : start + depth < part.span.stop

/-- A line starts in the part, in no statement that is replaced there. -/
structure Shows (part : job.Part) (start depth : Nat) : Prop extends part.Holds start depth where
  clear : ∀ edit ∈ part.edits, edit.span.within part.span = true →
    edit.span.surrounds start = false

end Part

def found (job : Job) (m : Converted) : List Edit :=
  (job.foundIn m.position m.statement m.call m.plan).edits

def inner (job : Job) (m : Converted) : Nat :=
  job.source.innerDedent m.statement m.plan.body m.position.dedent

def edit (job : Job) (m : Converted) : Edit :=
  job.source.moduleEdit m.statement m.plan (job.found m) m.position.dedent

def pieces (job : Job) (m : Converted) : List Piece :=
  job.source.pieces m.plan m.statement m.position.dedent

def separator (job : Job) (m : Converted) : Text :=
  job.source.separator m.statement m.position.dedent

def requireText (job : Job) (m : Converted) (dependency : Dependency) : Text :=
  requireStatement (job.source.render dependency.specifier (job.found m) m.position.dedent)
    (dependency.parameter.map job.source.slice)

/-- Whatever converted statement starts there, what becomes of it is something, and not
indented. -/
def Part.Opens (part : job.Part) (offset : Nat) : Prop :=
  ∀ n : Converted, job.Searches n.position n.node → job.Unwraps n.position n.call n.plan →
    job.edit n ∈ part.edits → n.statement.start = offset → (job.edit n).text.Unindented

theorem exportStatement_unindented (value : Text) : (exportStatement value).Unindented :=
  ⟨'m', _, rfl, rfl⟩

theorem requireText_unindented (job : Job) (m : Converted) (dependency : Dependency) :
    (job.requireText m dependency).Unindented := by
  rw [requireText]
  cases dependency.parameter with
  | none => exact ⟨'r', _, rfl, rfl⟩
  | some pattern => exact ⟨'v', _, rfl, rfl⟩

theorem Part.Opens.behind {part : job.Part} {offset : Nat} (opens : part.Opens offset)
    (parsed : readProgram mode job.source.text = .ok job.root)
    (done : (job.search .top job.root).failure = none)
    (shown : Text.Unindented (job.source.text.dropBytes offset)) (lt : offset < part.span.stop) :
    Text.Unindented (part.behind offset) := by
  obtain ⟨lo, hi, apart⟩ := part.prints.apart parsed done
  apply Text.Unindented.append
  apply Source.render_unindented shown lt apart
  intro edit member same
  obtain ⟨q, n, searches, makes⟩ := part.prints.makes done edit member
  cases makes with
  | @module statement call plan unwraps =>
      exact opens ⟨q, statement, call, plan⟩ searches unwraps member same
  | value => exact exportStatement_unindented _

theorem Part.Shows.linesUp {part : job.Part} (shows_ : part.Shows start depth)
    (parsed : readProgram mode job.source.text = .ok job.root)
    (done : (job.search .top job.root).failure = none) (line : job.source.LineAt start depth)
    (le : part.dedent ≤ depth) (opens : part.Opens (start + depth)) :
    Text.LinesUp (job.source.render ⟨0, job.source.text.byteLength⟩
        (job.search .top job.root).edits 0) (depth - part.dedent)
      (part.ahead (start + depth)) (part.behind (start + depth)) := by
  obtain ⟨low, high⟩ := shows_.toHolds
  obtain ⟨lo, hi, apart⟩ := part.prints.apart parsed done
  have names := part.prints.names parsed (by omega)
  obtain ⟨parted, front, margin, ends, indent, length⟩ :=
    line.render names apart le low (Nat.le_of_lt high) shows_.clear
  have inside : part.span.stop ≤ job.source.text.byteLength := by
    obtain ⟨before, text, after, whole, span⟩ := names
    rw [whole, span, Text.byteLength_append, Text.byteLength_append]
    dsimp only
    omega
  have visible : Text.Unindented (part.behind (start + depth)) :=
    opens.behind parsed done (line.unindented (Nat.lt_of_lt_of_le high inside)) high
  have last : Text.lastLine (part.ahead (start + depth)) = margin := by
    rw [ahead, ends, ← List.append_assoc]
    exact Text.lastLine_line_feed _ (Text.not_mem_of_indent indent)
  constructor
  · rw [part.prints.output_eq parsed done, parted, ahead, behind]
    simp only [List.append_assoc]
  · rw [last, Text.indentWidth_append _ visible, Text.indentWidth_of_indent indent, length]

/-- A part that is printed in which the statement is replaced. -/
structure Site (job : Job) (m : Converted) where
  part : job.Part
  searches : job.Searches m.position m.node
  unwraps : job.Unwraps m.position m.call m.plan
  replaced : job.edit m ∈ part.edits
  within : m.statement.within part.span = true

namespace Site

variable {front back : List Piece} {piece : Piece}

def before (site : job.Site m) (front : List Piece) : Text :=
  site.part.ahead m.statement.start ++
    front.flatMap (job.source.print (job.found m) · ++ job.separator m)

def after (site : job.Site m) (back : List Piece) : Text :=
  back.flatMap (job.separator m ++ job.source.print (job.found m) ·) ++
    site.part.behind m.statement.stop

def printed (site : job.Site m) (split : job.pieces m = front ++ piece :: back) : job.Part where
  span := piece.part
  edits := job.found m
  dedent := piece.dedent
  before := site.before front ++ piece.lead
  after := piece.trail ++ site.after back
  prints := by
    have prints := Prints.piece site.part.prints site.searches site.unwraps rfl rfl site.replaced
      site.within split
    simpa only [before, after, Part.ahead, Part.behind, found, separator, List.append_assoc] using
      prints

theorem output_eq (site : job.Site m) (parsed : readProgram mode job.source.text = .ok job.root)
    (done : (job.search .top job.root).failure = none)
    (split : job.pieces m = front ++ piece :: back) :
    job.source.render ⟨0, job.source.text.byteLength⟩ (job.search .top job.root).edits 0 =
      site.before front ++ (job.source.print (job.found m) piece ++ site.after back) := by
  rw [(site.printed split).prints.output_eq parsed done]
  simp only [printed, Source.print, List.append_assoc]

theorem piece_holds (site : job.Site m)
    (parsed : readProgram mode job.source.text = .ok job.root) {part : Span} {dedent : Nat}
    (member : ⟨[], part, dedent, []⟩ ∈ job.pieces m) : job.source.text.Holds part := by
  obtain ⟨-, nested⟩ :=
    (site.searches.placed parsed).nested.mem (List.mem_singleton_self m.call)
  have found := site.unwraps.moduleBody
  have amd := site.unwraps.amd
  simp only [pieces, Source.pieces, List.mem_append, Option.mem_toList, Option.map_eq_some_iff,
    List.mem_map] at member
  rcases member with (⟨_, opens, same⟩ | ⟨dependency, -, same⟩) | ⟨e, ends, same⟩
  · cases same
    exact prologue_holds amd nested found opens
  · have lead := congrArg Piece.lead same
    cases parameter : dependency.parameter <;> rw [parameter] at lead <;> cases lead
  · have lead := congrArg Piece.lead same
    obtain rfl : e.part = part := congrArg Piece.part same
    cases body : m.plan.body with
    | value expression =>
        rw [body] at ends
        cases ends
        cases lead
    | statements region directives =>
        rw [body] at ends found
        obtain ⟨factory, heads, span, statements, hasBody, rfl, rfl⟩ :=
          moduleBody_statements amd nested found
        exact (ending_statements hasBody.encloses (hasBody.nested nested amd) ends).1

end Site

/-- The statement stands on a line that comes out so deep, and so do the lines it separates. -/
structure Site.Level (site : job.Site m) (width : Nat) : Prop where
  line : (site.part.ahead m.statement.start).lastLine.indentWidth = width
  moved : (job.source.movedIndent m.statement.start m.position.dedent).length = width

namespace Site.Level

variable {site : job.Site m} {front back : List Piece} {piece : Piece}

theorem before (level : site.Level width) (front : List Piece) :
    (site.before front).lastLine.indentWidth = width := by
  rcases List.eq_nil_or_concat front with rfl | ⟨others, last, rfl⟩
  · rw [Site.before, List.flatMap_nil, List.append_nil]
    exact level.line
  · rw [Site.before, List.concat_eq_append, List.flatMap_append, List.flatMap_singleton,
      ← List.append_assoc, ← List.append_assoc, separator, Source.lastLine_separator,
      Text.indentWidth_of_indent (job.source.movedIndent_indent _ _), level.moved]

theorem linesUp (level : site.Level width)
    (parsed : readProgram mode job.source.text = .ok job.root)
    (done : (job.search .top job.root).failure = none)
    (split : job.pieces m = front ++ piece :: back)
    (visible : Text.Unindented (job.source.print (job.found m) piece ++ site.after back)) :
    Text.LinesUp (job.source.render ⟨0, job.source.text.byteLength⟩
        (job.search .top job.root).edits 0) width
      (site.before front) (job.source.print (job.found m) piece ++ site.after back) := by
  refine ⟨site.output_eq parsed done split, ?_⟩
  rw [Text.indentWidth_append _ visible, level.before]

theorem inner_eq (level : site.Level width) {content : Span} {indent : Nat}
    (moves : job.source.movingPart m.plan.body = some (content, indent)) :
    job.inner m = indent - width := by
  rw [inner, Source.innerDedent, moves]
  dsimp only
  rw [level.moved]

end Site.Level

/-- A line of a body is in a statement that is replaced there, and in nothing of the statement that
is printed and moves as far as the body does. The statement itself moves as far, unless it stands in
an element of the list of another one. -/
def Hides (job : Job) (region : Span) (dedent start depth : Nat) : Prop :=
  ∃ part : job.Part, part.Holds start depth ∧ part.dedent = dedent ∧
    part.span.within region = true ∧
    ∃ edit ∈ part.edits, edit.span.within part.span = true ∧ edit.span.surrounds start = true ∧
      ∃ q n, job.Searches q n ∧ job.Makes q n edit ∧
        (q.dedent = dedent ∨ job.IsElement part.span) ∧
        ∀ retained, job.Retains q n retained dedent → retained.within region = true →
          ¬ (retained.start < start ∧ start + depth < retained.stop)

theorem Site.piece_of_line (site : job.Site m)
    (parsed : readProgram mode job.source.text = .ok job.root) {region : Span}
    {directives : Option Span} (braced : m.plan.body = .statements region directives)
    (line : job.source.LineAt start depth) (low : region.start ≤ start)
    (high : start + depth < region.stop) (visible : job.source.Visible (start + depth)) :
    ∃ front part back, job.pieces m = front ++ ⟨[], part, job.inner m, []⟩ :: back ∧
      part.within region = true ∧
      (part.start = start + depth ∨ part.start < start ∧ start + depth < part.stop) := by
  have inCall := (site.searches.placed parsed).nested.mem (List.mem_singleton_self m.call)
  have found := site.unwraps.moduleBody
  rw [braced] at found
  obtain ⟨factory, heads, span, statements, hasBody, rfl, -⟩ :=
    moduleBody_statements site.unwraps.amd inCall.2 found
  obtain ⟨stop, holds, uncut⟩ := line.shows visible
  have filled := holds.lt
  have ends : stop ≤ (interior span).stop := by
    rcases uncut _ hasBody.encloses.names.boundaries.2 with before | after
    · exact absurd high (Nat.not_lt_of_le before)
    · exact after
  obtain ⟨part, within, inRegion, member⟩ := site.unwraps.covers site.searches parsed braced holds
    (Span.within_iff.mpr ⟨Nat.le_trans low (Nat.le_add_right _ _), ends⟩) (by
      rintro opening rfl
      obtain ⟨path, n, reaches, same⟩ :=
        site.unwraps.opening_stop site.searches parsed braced
      rw [← same]
      exact uncut _ (reaches.names parsed).boundaries.2)
  obtain ⟨front, back, split⟩ := List.append_of_mem member
  obtain ⟨starts, stops⟩ := Span.within_iff.mp within
  dsimp only at starts stops filled
  refine ⟨front, part, back, split, inRegion, ?_⟩
  rcases line.starts_before (site.piece_holds parsed member) starts with before | same
  · exact .inr ⟨before, by omega⟩
  · exact .inl same

theorem Site.shows_line (site : job.Site m)
    (parsed : readProgram mode job.source.text = .ok job.root)
    (done : (job.search .top job.root).failure = none) {region : Span}
    {directives : Option Span} (braced : m.plan.body = .statements region directives)
    (line : job.source.LineAt start depth) (low : region.start ≤ start)
    (high : start + depth < region.stop) (visible : job.source.Visible (start + depth)) :
    (∃ front part back, job.pieces m = front ++ ⟨[], part, job.inner m, []⟩ :: back ∧
      part.start = start + depth) ∨
    (∃ part : job.Part, part.dedent = job.inner m ∧ part.Shows start depth) ∨
    job.Hides region (job.inner m) start depth := by
  obtain ⟨front, part, back, split, inRegion, same | inside⟩ :=
    site.piece_of_line parsed braced line low high visible
  · exact .inl ⟨front, part, back, split, same⟩
  let In (span : Span) (dedent : Nat) : Prop := dedent = job.inner m ∧
    span.within region = true ∧ span.start < start ∧ start + depth < span.stop
  have prints := (site.printed split).prints
  obtain ⟨lo, hi, apart⟩ := prints.apart parsed done
  obtain ⟨span, edits, dedent, before, after, prints, ⟨same, within, starts, stops⟩, shown⟩ :=
    prints.descends In (fun span => span.surrounds start = true) parsed done
      ⟨rfl, inRegion, inside⟩ fun edit member => (apart.bounds edit member).2.2
  let holder : job.Part := ⟨span, edits, dedent, before, after, prints⟩
  rcases shown with clear |
    ⟨edit, member, within', surrounds, q, n, searches, makes, moves, others⟩
  · refine .inr (.inl ⟨holder, same, ⟨starts, stops⟩, fun edit member within => ?_⟩)
    exact Bool.eq_false_iff.mpr (clear edit member within)
  · rw [same] at moves
    refine .inr (.inr ⟨holder, ⟨starts, stops⟩, same, within, edit, member, within', surrounds, q,
      n, searches, makes, moves, fun retained retains inRegion inside => ?_⟩)
    exact others retained _ retains ⟨rfl, inRegion, inside⟩

/-- A statement stands in the braced body of another's factory itself, alone on its line, which is
as deep as that body. -/
structure Directly (job : Job) (m k : Converted) : Prop where
  body : ∃ factory span statements, (arguments m.call).getLast? = some factory ∧
    factory.children.getLast? = some (.mk .functionBody span statements) ∧ k.node ∈ statements ∧
    k.position = job.inBody m.position m.statement m.call m.plan factory
      (.mk .functionBody span statements)
  unwraps : job.Unwraps k.position k.call k.plan
  alone : ∃ content indent, job.source.movingPart m.plan.body = some (content, indent) ∧
    job.source.StandsAlone k.statement.start indent

theorem Site.body (site : job.Site m) (parsed : readProgram mode job.source.text = .ok job.root)
    {content : Span} (moves : job.source.movingPart m.plan.body = some (content, depth)) :
    ∃ factory heads span statements,
      HasBody job.source.text m.call factory heads span statements ∧
      m.plan.body = .statements (interior span) (directiveSpan statements) ∧
      Nested job.source.text (interior span).start statements (interior span).stop := by
  have inCall := (site.searches.placed parsed).nested.mem (List.mem_singleton_self m.call)
  have found := site.unwraps.moduleBody
  cases body : m.plan.body with
  | value expression =>
      rw [body] at moves
      cases moves
  | statements region directives =>
      rw [body] at found
      obtain ⟨factory, heads, span, statements, hasBody, rfl, rfl⟩ :=
        moduleBody_statements site.unwraps.amd inCall.2 found
      exact ⟨factory, heads, span, statements, hasBody, rfl,
        hasBody.nested inCall.2 site.unwraps.amd⟩

theorem Site.found_of_body (site : job.Site m)
    (parsed : readProgram mode job.source.text = .ok job.root)
    (done : (job.search .top job.root).failure = none) {factory : Node}
    {heads statements : List Node} {span : Span}
    (hasBody : HasBody job.source.text m.call factory heads span statements)
    (member : k.node ∈ statements)
    (position : k.position = job.inBody m.position m.statement m.call m.plan factory
      (.mk .functionBody span statements))
    (unwraps : job.Unwraps k.position k.call k.plan) :
    job.Searches k.position k.node ∧ job.edit k ∈ job.found m := by
  have inCall := (site.searches.placed parsed).nested.mem (List.mem_singleton_self m.call)
  obtain ⟨notes, decided⟩ := site.unwraps.decided
  have searches := site.searches.inBody site.unwraps.amd site.unwraps.among decided hasBody _ member
  rw [← position] at searches
  obtain ⟨-, inside, -⟩ := site.unwraps.foundIn site.searches done
  obtain ⟨others, -, statementsDone, edits⟩ :=
    foundIn_parts site.unwraps.amd inCall.2 hasBody inside
  rw [← position] at statementsDone edits
  obtain ⟨notes', decided'⟩ := unwraps.decided
  obtain ⟨-, alone⟩ := search_converted (searches.done done) unwraps.amd unwraps.among decided'
  refine ⟨searches, ?_⟩
  rw [found, edits, searchAll_edits statementsDone]
  apply List.mem_append_right
  apply List.mem_flatMap.mpr ⟨k.node, member, ?_⟩
  rw [Converted.node, alone]
  exact List.mem_singleton_self _

theorem Site.piece_of_statement (site : job.Site m)
    (parsed : readProgram mode job.source.text = .ok job.root) {span : Span}
    {statements : List Node}
    (braced : m.plan.body = .statements (interior span) (directiveSpan statements))
    (nested : Nested job.source.text (interior span).start statements (interior span).stop)
    (member : k.node ∈ statements) (holds : job.source.text.Holds k.statement) :
    ∃ part, k.statement.within part = true ∧ ⟨[], part, job.inner m, []⟩ ∈ job.pieces m := by
  obtain ⟨low, -, high⟩ := nested.bounds k.node member
  have whole : ∀ opening, directiveSpan statements = some opening →
      opening.stop ≤ k.statement.start ∨ k.statement.stop ≤ opening.stop := by
    intro opening found
    obtain ⟨front, back, last, rfl, ends, -, stop⟩ := directiveSpan_some found
    obtain ⟨first, rest⟩ := nested.split_last ends
    rw [stop]
    rcases List.mem_append.mp member with early | late
    · exact .inr (first.bounds k.node early).2.2
    · exact .inl (rest.bounds k.node late).1
  obtain ⟨part, within, -, inPieces⟩ := site.unwraps.covers site.searches parsed braced holds
    (Span.within_iff.mpr ⟨low, high⟩) whole
  exact ⟨part, within, inPieces⟩

/-- No other statement that is replaced stands around it. -/
structure Outermost (job : Job) (m : Converted) : Prop where
  visits : job.Visits .top job.root m.position m.node
  unwraps : job.Unwraps m.position m.call m.plan

/-- No other statement that is replaced ends on its line before it. -/
def StartsLine (job : Job) (m : Converted) : Prop :=
  ∀ n, job.Outermost n → n.statement.stop ≤ m.statement.start →
    '\n' ∈ job.source.slice ⟨n.statement.stop, m.statement.start⟩

/-- The body of its factory, if that has one, is no less deep. -/
def Deep (job : Job) (width : Nat) (m : Converted) : Prop :=
  ∀ content indent, job.source.movingPart m.plan.body = some (content, indent) → width ≤ indent

/-- Statements that are replaced, each directly in the body of the next and the last of them
outermost, on a line that is so deep; no body is less deep. -/
inductive Chain (job : Job) (width : Nat) : List Converted → Prop where
  | outermost {m : Converted} : job.Outermost m → job.StartsLine m →
      (job.source.lineIndent m.statement.start).length = width → job.Deep width m →
      Chain job width [m]
  | nested {k m : Converted} {around : List Converted} : Chain job width (m :: around) →
      job.Directly m k → job.Deep width k → Chain job width (k :: m :: around)

theorem Outermost.level (outermost : job.Outermost m)
    (parsed : readProgram mode job.source.text = .ok job.root)
    (done : (job.search .top job.root).failure = none) (starts : job.StartsLine m)
    (depth : (job.source.lineIndent m.statement.start).length = width) :
    ∃ site : job.Site m, site.Level width := by
  obtain ⟨visits, unwraps⟩ := outermost
  have searches : job.Searches m.position m.node := visits.searches .top
  obtain ⟨notes, decided⟩ := unwraps.decided
  obtain ⟨-, edits⟩ := search_converted (searches.done done) unwraps.amd unwraps.among decided
  have replaced : job.edit m ∈ (job.search .top job.root).edits :=
    visits.found done _ (by rw [Converted.node, edits]; exact List.mem_singleton_self _)
  let part : job.Part := ⟨_, _, _, _, _, .program⟩
  have apart := (program_edits parsed done).1
  have holds : job.source.text.Holds m.statement := apart.holds replaced
  refine ⟨⟨part, searches, unwraps, replaced, searches.reaches.in_text parsed⟩, ?_, ?_⟩
  · rw [← depth]
    apply Source.indentWidth_render holds.names.boundaries.1 apart
    intro edit member before
    obtain ⟨q, n, visits', makes⟩ := search_makes done edit member
    cases makes with
    | @module statement call plan unwraps' =>
        exact starts ⟨q, statement, call, plan⟩ ⟨visits', unwraps'⟩ before
    | @value statement argument inFactory =>
        have returns : Returns q (.mk .returnStatement statement [argument]) :=
          ⟨statement, argument, rfl, inFactory⟩
        exact absurd returns (not_returns visits'.converting_eq _)
  · have still : m.position.dedent = 0 := visits.dedent_eq
    rw [Source.length_movedIndent, depth, still, Nat.sub_zero]

theorem Site.Level.directly {site : job.Site m} (level : site.Level width)
    (parsed : readProgram mode job.source.text = .ok job.root)
    (done : (job.search .top job.root).failure = none) (directly : job.Directly m k)
    (deep : job.Deep width m) : ∃ site' : job.Site k, site'.Level width := by
  obtain ⟨content, indent, moves, alone⟩ := directly.alone
  have inner := level.inner_eq moves
  have le := deep content indent moves
  obtain ⟨factory, heads, span, statements, hasBody, braced, nested⟩ := site.body parsed moves
  obtain ⟨factory', span', statements', last, ending, member, position⟩ := directly.body
  cases last.symm.trans hasBody.last
  rw [hasBody.parts, List.getLast?_concat] at ending
  cases ending
  obtain ⟨searches, replaced⟩ :=
    site.found_of_body parsed done hasBody member position directly.unwraps
  obtain ⟨-, inside, -⟩ := site.unwraps.foundIn site.searches done
  have apart : Apart job.source.text _ (job.found m) _ :=
    edits_apart (site.searches.placed parsed).nested inside
  have holds : job.source.text.Holds k.statement := apart.holds replaced
  obtain ⟨part, within, inPieces⟩ := site.piece_of_statement parsed braced nested member holds
  obtain ⟨front, back, split⟩ := List.append_of_mem inPieces
  have around := site.piece_holds parsed inPieces
  refine ⟨⟨site.printed split, searches, directly.unwraps, replaced, within⟩, ?_, ?_⟩
  · have ahead : Part.ahead (site.printed split) k.statement.start = site.before front ++
        job.source.render ⟨part.start, k.statement.start⟩ (job.found m) (job.inner m) :=
      congrArg (· ++ _) (List.append_nil (site.before front))
    rw [ahead]
    rcases Nat.eq_or_lt_of_le (Span.within_iff.mp within).1 with same | lt
    · rw [same, Source.render_empty apart, List.append_nil]
      exact level.before front
    · have less : job.inner m ≤ indent := by omega
      obtain ⟨upper, line, ends, plain, depth⟩ := alone.render holds around apart less lt
      rw [ends, ← List.append_assoc, Text.lastLine_line_feed _ plain, depth]
      omega
  · have dedent : k.position.dedent = job.inner m := by rw [position]; rfl
    rw [Source.length_movedIndent, alone.lineIndent holds, dedent]
    omega

theorem Chain.level {chain : List Converted} (linked : job.Chain width chain)
    (parsed : readProgram mode job.source.text = .ok job.root)
    (done : (job.search .top job.root).failure = none) :
    ∀ m ∈ chain, job.Deep width m ∧ ∃ site : job.Site m, site.Level width := by
  induction linked with
  | outermost outermost starts depth deep =>
      rw [List.forall_mem_singleton]
      exact ⟨deep, outermost.level parsed done starts depth⟩
  | @nested k m around _ directly deep ih =>
      rw [List.forall_mem_cons]
      obtain ⟨deep', site, level⟩ := ih m List.mem_cons_self
      exact ⟨⟨deep, level.directly parsed done directly deep'⟩, ih⟩

/-- What becomes of a statement is flush with lines that are so deep: what each dependency is
loaded with, and each line of its body that starts outside of all literals as deep as the body
does, wherever it is printed moved with the body. Such a line is printed so unless a statement that
is replaced in the body hides it. -/
structure Site.Flush (site : job.Site m) (width : Nat) (output : Text) : Prop where
  requires : ∀ dependency ∈ m.plan.dependencies, ∃ front piece back,
    job.pieces m = front ++ piece :: back ∧
    job.source.print (job.found m) piece = job.requireText m dependency ∧
    output.LinesUp width (site.before front) (job.requireText m dependency ++ site.after back)
  starts : ∀ front part back (split : job.pieces m = front ++ ⟨[], part, job.inner m, []⟩ :: back),
    (site.printed split).Opens part.start →
    output.LinesUp width (site.before front) ((site.printed split).behind part.start)
  lines : ∀ content indent, job.source.movingPart m.plan.body = some (content, indent) →
    ∀ start, job.source.LineAt start indent → ∀ part : job.Part, part.dedent = job.inner m →
    part.Shows start indent → part.Opens (start + indent) →
    output.LinesUp width (part.ahead (start + indent)) (part.behind (start + indent))
  covers : ∀ region directives content indent, m.plan.body = .statements region directives →
    job.source.movingPart m.plan.body = some (content, indent) →
    ∀ start, job.source.LineAt start indent → region.start ≤ start →
    start + indent < region.stop → job.source.Visible (start + indent) →
    (∃ front part back, job.pieces m = front ++ ⟨[], part, job.inner m, []⟩ :: back ∧
      part.start = start + indent) ∨
    (∃ part : job.Part, part.dedent = job.inner m ∧ part.Shows start indent) ∨
    job.Hides region (job.inner m) start indent

theorem requireText_mem (job : Job) {dependency : Dependency}
    (member : dependency ∈ m.plan.dependencies) : ∃ piece ∈ job.pieces m,
      job.source.print (job.found m) piece = job.requireText m dependency := by
  refine ⟨_, List.mem_append_left _ (List.mem_append_right _ (List.mem_map_of_mem member)), ?_⟩
  exact (requireStatement_eq _ _).symm

theorem Site.Level.flush {site : job.Site m} (level : site.Level width)
    (parsed : readProgram mode job.source.text = .ok job.root)
    (done : (job.search .top job.root).failure = none) (deep : job.Deep width m) :
    site.Flush width (job.source.render ⟨0, job.source.text.byteLength⟩
      (job.search .top job.root).edits 0) where
  requires := by
    intro dependency member
    obtain ⟨piece, inPieces, same⟩ := requireText_mem job member
    obtain ⟨front, back, split⟩ := List.append_of_mem inPieces
    have visible := requireText_unindented job m dependency
    rw [← same] at visible ⊢
    exact ⟨front, piece, back, split, rfl, level.linesUp parsed done split (visible.append _)⟩
  starts := by
    intro front part back split opens
    have member : ⟨[], part, job.inner m, []⟩ ∈ job.pieces m := by
      rw [split]
      exact List.mem_append_right _ List.mem_cons_self
    have holds := site.piece_holds parsed member
    have behind : (site.printed split).behind part.start =
        job.source.print (job.found m) ⟨[], part, job.inner m, []⟩ ++ site.after back := by
      simp only [Part.behind, Site.printed, Source.print, List.nil_append, List.append_nil]
    have visible := opens.behind parsed done (Source.unindented_of_holds holds) holds.lt
    rw [behind] at visible ⊢
    exact level.linesUp parsed done split visible
  lines := by
    intro content indent moves start line part dedent shows_ opens
    have le := deep content indent moves
    have inner := level.inner_eq moves
    have linesUp := shows_.linesUp parsed done line (by omega) opens
    rwa [dedent, inner, Nat.sub_sub_self le] at linesUp
  covers := by
    intro region directives content indent braced _ start line low high visible
    exact site.shows_line parsed done braced line low high visible

theorem Outermost.startsLine (outermost : job.Outermost m)
    (parsed : readProgram mode job.source.text = .ok job.root) {top : Span}
    (program : job.root = .mk .program top [m.node])
    (position : m.position = Position.top.below job.root) : job.StartsLine m := by
  obtain ⟨visits, unwraps⟩ := outermost
  intro n others before
  obtain ⟨other, -⟩ := others
  generalize same : n.node = node at other
  generalize n.position = q at other
  cases other with
  | here =>
      rw [program] at same
      cases same
  | down _ _ member rest =>
      rw [program] at member
      obtain rfl := List.mem_singleton.mp member
      cases rest with
      | here =>
          have place : n.statement = m.statement := congrArg Node.span same
          have nested := ((visits.searches .top).placed parsed).nested
          obtain ⟨start, -, stop⟩ : m.statement.start ≤ m.call.span.start ∧ _ ∧
              m.call.span.stop ≤ m.statement.stop :=
            nested.bounds m.call (List.mem_singleton_self m.call)
          have lt := (nested.mem (List.mem_singleton_self m.call)).1.filled
            (by rw [kind_of_isAmd unwraps.amd]; rfl)
          rw [place] at before
          omega
      | down still _ _ _ =>
          rw [← position] at still
          exact absurd unwraps.converts still

theorem Chain.pair {top outer body inner : Span} {call factory call' : Node}
    {statements : List Node} {plan plan' : Plan} {content content' : Span} {indent indent' : Nat}
    (parsed : readProgram mode job.source.text = .ok job.root)
    (program : job.root = .mk .program top [.mk .expressionStatement outer [call]])
    (amd : isAmd call = true)
    (decided : ∃ notes, decision job.root job.policy call = .convert notes plan)
    (last : (arguments call).getLast? = some factory)
    (ending : factory.children.getLast? = some (.mk .functionBody body statements))
    (member : .mk .expressionStatement inner [call'] ∈ statements) (amd' : isAmd call' = true)
    (decided' : ∃ notes, decision job.root job.policy call' = .convert notes plan')
    (moves : job.source.movingPart plan.body = some (content, indent))
    (moves' : job.source.movingPart plan'.body = some (content', indent'))
    (alone : job.source.StandsAlone inner.start indent)
    (width_eq : (job.source.lineIndent outer.start).length = width) (le : width ≤ indent)
    (le' : width ≤ indent') :
    let m : Converted := ⟨Position.top.below job.root, outer, call, plan⟩
    job.Chain width [⟨job.inBody m.position outer call plan factory
      (.mk .functionBody body statements), inner, call', plan'⟩, m] := by
  intro m
  have still : ¬ Converts job.root job.policy [] job.root :=
    not_converts_of_kind (by rw [program]; nofun)
  have child : m.node ∈ job.root.children := by
    rw [program]
    exact List.mem_singleton_self _
  have visits : job.Visits .top job.root m.position m.node :=
    .down still (not_returns rfl job.root) child .here
  have among : m.position.amongStatements = true := by
    change (Option.any holdsStatements (some job.root)) = true
    rw [program]
    rfl
  have outermost : job.Outermost m := ⟨visits, amd, among, decided⟩
  have starts := outermost.startsLine parsed program rfl
  refine .nested (.outermost outermost starts width_eq ?_) ?_ ?_
  · intro _ _ same
    cases moves.symm.trans same
    exact le
  · exact ⟨⟨factory, body, statements, last, ending, member, rfl⟩, ⟨amd', rfl, decided'⟩,
      content, indent, moves, alone⟩
  · intro _ _ same
    cases moves'.symm.trans same
    exact le'

end Job

/-- However deep modules stand in one another, what becomes of each is flush with the line of the
outermost, whatever the steps between them were. -/
theorem convert_flushes_chains {options : Options} {text output : Text} {root : Node} {width : Nat}
    {chain : List Converted} (converted : convert options text = .ok output)
    (parsed : readProgram options.mode text = .ok root) :
    let job : Job := ⟨root, .ofProgram text root, options.policy⟩
    job.Chain width chain → ∀ m ∈ chain, ∃ site : job.Site m, site.Flush width output := by
  intro job linked m member
  obtain ⟨_, parsed', done, rfl⟩ := convert_ok converted
  cases parsed.symm.trans parsed'
  obtain ⟨deep, site, level⟩ := linked.level parsed done m member
  exact ⟨site, level.flush parsed done deep⟩

@[irreducible] def nestedModules : Text :=
  ("  define(['a'], function (a) \x7b\n    define(function () \x7b\n        b();\n    c();\n" ++
    "        return a;\n    \x7d);\n  \x7d);").toList

def unwrappedModules : Text :=
  "  var a = require('a');\n  b();\nc();\n  module.exports = a;".toList

theorem convert_nestedModules : convert {} nestedModules = .ok unwrappedModules :=
  ok_of_toOption (by decide +kernel)

theorem nestedModules_lines : ∀ start ∈ [31, 69],
    nestedModules = nestedModules.take (start - 1) ++ '\n' :: nestedModules.drop start ∧
      start = Text.byteLength (nestedModules.take (start - 1)) + 1 ∧
      Text.indentWidth (nestedModules.drop start) = 4 := by
  decide +kernel

theorem nestedModules_margin : (nestedModules.slice ⟨31, 35⟩).all isBlank = true ∧
    '\n' ∉ nestedModules.slice ⟨31, 35⟩ := by
  decide +kernel

theorem nestedModules_shape :
    ((readProgram .global nestedModules).toOption.any fun root =>
      let source := Source.ofProgram nestedModules root
      match root with
      | .mk .program _ [.mk .expressionStatement outer [call]] =>
        isAmd call && (source.lineIndent outer.start).length == 2 &&
        match decision root .abort call, (arguments call).getLast? with
        | .convert _ plan, some factory =>
          match source.movingPart plan.body, factory.children.getLast? with
          | some (content, 4), some (.mk .functionBody _
              (.mk .expressionStatement inner [call'] :: _)) =>
            content.start == 35 && 73 < content.stop && !source.inLiteral 31 &&
            !source.inLiteral 69 && isAmd call' && inner.start == 35 &&
            match decision root .abort call' with
            | .convert _ plan' => (source.movingPart plan'.body).map Prod.snd == some 8
            | _ => false
          | _, _ => false
        | _, _ => false
      | _ => false) = true := by
  decide +kernel

theorem nestedModules_chain {root : Node}
    (parsed : readProgram .global nestedModules = .ok root) :
    let job : Job := ⟨root, .ofProgram nestedModules root, .abort⟩
    ∃ k m content, job.Chain 2 [k, m] ∧ job.source.movingPart m.plan.body = some (content, 4) ∧
      content.start = 35 ∧ 73 < content.stop ∧ job.source.LineAt 69 4 := by
  intro job
  have shape := nestedModules_shape
  rw [parsed] at shape
  simp only [Except.toOption, Option.any_some] at shape
  split at shape
  case h_2 => cases shape
  next top outer call =>
    simp only [Bool.and_eq_true, beq_iff_eq] at shape
    obtain ⟨⟨amd, depth⟩, shape⟩ := shape
    split at shape
    case h_2 => cases shape
    next notes plan factory decided last =>
      split at shape
      case h_2 => cases shape
      next content body inner call' rest moves ending =>
        simp only [Bool.and_eq_true, beq_iff_eq, Bool.not_eq_true', decide_eq_true_eq] at shape
        obtain ⟨⟨⟨⟨⟨⟨start, stop⟩, free⟩, free'⟩, amd'⟩, first⟩, shape⟩ := shape
        split at shape
        case h_2 => cases shape
        next notes' plan' decided' =>
          rw [beq_iff_eq, Option.map_eq_some_iff] at shape
          obtain ⟨⟨content', _⟩, moves', rfl⟩ := shape
          have line {start : Nat} (member : start ∈ [31, 69])
              (free : job.source.inLiteral start = false) : job.source.LineAt start 4 :=
            ⟨⟨_, _, nestedModules_lines start member⟩, free⟩
          have alone : job.source.StandsAlone inner.start 4 := by
            obtain ⟨blank, plain⟩ := nestedModules_margin
            rw [first]
            exact ⟨31, by decide, line (by decide) free, List.all_eq_true.mp blank, plain⟩
          exact ⟨_, _, content, .pair parsed rfl amd ⟨notes, decided⟩ last ending
            List.mem_cons_self amd' ⟨notes', decided'⟩ moves moves' alone depth (by decide)
            (by decide), moves, start, stop, line (by decide) free'⟩

theorem convert_flushes_nested_modules :
    convert {} nestedModules = .ok unwrappedModules ∧ ∃ (job : Job) (k m : Converted),
      readProgram .global nestedModules = .ok job.root ∧ job.Chain 2 [k, m] ∧
      ∀ n ∈ [k, m], ∃ site : job.Site n, site.Flush 2 unwrappedModules := by
  obtain ⟨root, parsed, -⟩ := convert_ok convert_nestedModules
  obtain ⟨k, m, content, linked, -⟩ := nestedModules_chain parsed
  exact ⟨convert_nestedModules, ⟨root, .ofProgram nestedModules root, .abort⟩, k, m, parsed,
    linked, convert_flushes_chains convert_nestedModules parsed linked⟩

/-- Some lines of a body that are as deep as the body do not come out so: one in the body of
another module, which moves as far as that one does; one that opens with a module of which nothing
is left; the line of the outermost module itself, after such a one; and those of a parameter. -/
theorem convert_outdents_lines :
    (convert {} nestedModules = .ok unwrappedModules ∧
      nestedModules.slice ⟨73, 77⟩ = "c();".toList ∧ "c();\n".toList ∈ unwrappedModules.lines ∧
      "  c();\n".toList ∉ unwrappedModules.lines ∧
      ∃ (job : Job) (k m : Converted) (content : Span),
        readProgram .global nestedModules = .ok job.root ∧ job.Chain 2 [k, m] ∧
        job.source.movingPart m.plan.body = some (content, 4) ∧ content.start = 35 ∧
        73 < content.stop ∧ job.source.LineAt 69 4) ∧
    convert {} "define(function () \x7b\n    define(function () \x7b\x7d); b();\n\x7d);".toList =
      .ok " b();".toList ∧
    convert {} ("define(function () \x7b\x7d); define(['a'], function (a) \x7b\n" ++
      "    a();\n\x7d);").toList = .ok " var a = require('a');\na();".toList ∧
    convert {} ("define(function () \x7b\n    define(['x'], function (\x7b\n    a\n    \x7d) " ++
      "\x7b\n        a();\n    \x7d);\n\x7d);").toList =
      .ok "var \x7b\n    a\n    \x7d = require('x');\na();".toList := by
  refine ⟨?_, ok_of_toOption (by decide +kernel), ok_of_toOption (by decide +kernel),
    ok_of_toOption (by decide +kernel)⟩
  obtain ⟨root, parsed, -⟩ := convert_ok convert_nestedModules
  obtain ⟨k, m, content, linked, moves, start, stop, line⟩ := nestedModules_chain parsed
  exact ⟨convert_nestedModules, by decide +kernel, by decide, by decide,
    ⟨root, .ofProgram nestedModules root, .abort⟩, k, m, content, parsed, linked, moves, start,
    stop, line⟩

end AmdUnwrap
