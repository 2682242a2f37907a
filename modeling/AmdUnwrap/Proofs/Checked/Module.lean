import AmdUnwrap.Proofs.Checked.Print
import AmdUnwrap.Proofs.Printing

namespace AmdUnwrap.Checked
open Amd

def interior (block : Span) : Option Span := do
  let start ← add block.start 1
  let stop ← sub block.stop 1
  return ⟨start, max stop start⟩

def bracedBody : Node → Option (Option ModuleBody)
  | .mk .functionBody span body =>
    (interior span).map fun region => some (.statements region (directiveSpan body))
  | _ => some none

def lastBody (parts : List Node) : Option (Option ModuleBody) :=
  match parts.getLast? with
  | some body => bracedBody body
  | none => some none

def factoryBody : Node → Option (Option ModuleBody)
  | .mk (.object _) span _ => some (some (.value span))
  | .mk (.function false false) _ parts => lastBody parts
  | .mk (.arrow false false) _ parts => lastBody parts
  | .mk (.arrow false true) _ parts => some (parts.getLast?.bind conciseValue)
  | _ => some none

/-- To ask for the body of a call that is no AMD call is an error. -/
def moduleBody (call : Node) : Option (Option ModuleBody) :=
  if isAmd call then
    match (arguments call).getLast? with
    | some factory => factoryBody factory
    | none => some none
  else none

def decideBody (call : Node) (notes : List Event) (dependencies : List Dependency) :
    Option Decision :=
  (moduleBody call).map fun
    | some body => .convert notes ⟨dependencies, body⟩
    | none => .leave (notes ++ [.leftWithFactory call.span.start])

def decision (root : Node) (policy : Policy) (call : Node) : Option Decision :=
  if isAmd call then
    match dependencies root call with
    | .ok (some dependencies) => decideBody call [] dependencies
    | .ok none => decideBody call [.withoutDependencies call.span.start] []
    | .error (.unresolved name offset) =>
      match policy with
      | .abort => some (.fail ⟨name, offset⟩)
      | .skip => some (.leave [.leftUnresolved ⟨name, offset⟩])
    | .error reason => some (.leave [.leftUnreadable call.span.start reason])
  else none

section

variable {text : Text} {span : Span} {body parts : List Node} {factory call : Node}

theorem interior_eq (encloses : text.Encloses span body) (short : text.byteLength < offsetLimit) :
    interior span = some (Amd.interior span) := by
  obtain ⟨before, inner, after, rfl, rfl, -⟩ := encloses.interior
  have opening : Text.byteLength ('{' :: inner) = 1 + inner.byteLength := rfl
  simp only [Text.byteLength_append, opening] at short
  have start : add before.byteLength 1 = some (before.byteLength + 1) := add_eq (by omega)
  have stop : sub (before.byteLength + inner.byteLength + 2) 1 =
      some (before.byteLength + inner.byteLength + 1) := sub_eq (by omega)
  simp only [interior, start, stop, Option.bind_eq_bind, Option.bind_some]
  rfl

theorem lastBody_eq {heads : List Node} (last : parts = heads ++ [.mk .functionBody span body])
    (encloses : text.Encloses span body) (short : text.byteLength < offsetLimit) :
    lastBody parts = some (parts.getLast?.bind bracedBody?) := by
  rw [lastBody, last, List.getLast?_concat]
  simp only [bracedBody, interior_eq encloses short]
  rfl

theorem factoryBody_eq (stands : factory.Stands text) (short : text.byteLength < offsetLimit) :
    factoryBody factory = some (factoryBody? factory) := by
  have braced (isBraced : factory.kind.isBraced = true) :
      lastBody factory.children = some (factory.children.getLast?.bind bracedBody?) := by
    obtain ⟨heads, span, body, last, encloses⟩ := stands.braced isBraced
    exact lastBody_eq last encloses short
  obtain ⟨kind, span, parts⟩ := factory
  cases kind with
  | function async generator =>
      cases async <;> cases generator <;> first | exact braced rfl | rfl
  | arrow async concise => cases async <;> cases concise <;> first | exact braced rfl | rfl
  | _ => rfl

theorem moduleBody_eq (amd : isAmd call = true)
    (nested : Nested text call.span.start call.children call.span.stop)
    (short : text.byteLength < offsetLimit) : moduleBody call = some (moduleBody? call) := by
  rw [moduleBody, if_pos amd, moduleBody?]
  cases last : (arguments call).getLast? with
  | none => rfl
  | some factory =>
      exact factoryBody_eq (nested.mem (mem_children_of_getLast? amd last)).1 short

theorem decision_eq {root : Node} {policy : Policy} (amd : isAmd call = true)
    (nested : Nested text call.span.start call.children call.span.stop)
    (short : text.byteLength < offsetLimit) :
    decision root policy call = some (AmdUnwrap.decision root policy call) := by
  have decides (notes : List Event) (list : List Dependency) :
      decideBody call notes list = some (AmdUnwrap.decideBody call notes list) := by
    rw [decideBody, moduleBody_eq amd nested short, AmdUnwrap.decideBody]
    cases moduleBody? call <;> rfl
  rw [decision, if_pos amd, AmdUnwrap.decision]
  cases dependencies root call with
  | ok list => cases list <;> exact decides _ _
  | error reason =>
      cases reason with
      | unresolved name offset => cases policy <;> rfl
      | _ => rfl

end

def movingPart (s : Source) : ModuleBody → Option (Option (Span × Nat))
  | .statements region _ => do
    match ← trim s region with
    | some content =>
      let indent ← blockIndent s region content
      return some (content, indent)
    | none => return none
  | .value _ => some none

def partedBody (s : Source) (body : ModuleBody) (content : Span) :
    Option (Option Span × Option Span) :=
  match body with
  | .statements _ (some directives) =>
    (trim s ⟨directives.stop, content.stop⟩).map fun rest =>
      (some ⟨content.start, directives.stop⟩, rest)
  | _ => some (none, some content)

def movedIndent (s : Source) (offset dedent : Nat) : Option Text := do
  let indent ← lineIndent s offset
  stripIndent indent dedent

def innerDedent (s : Source) (statement : Span) (body : ModuleBody) (dedent : Nat) :
    Option Nat := do
  let indent ← movedIndent s statement.start dedent
  match ← movingPart s body with
  | some (_, depth) => return depth - indent.byteLength
  | none => return dedent

def require (s : Source) (edits : List Edit) (dedent : Nat) (dependency : Dependency) :
    Option Text := do
  let specifier ← render s dependency.specifier edits dedent
  match dependency.parameter with
  | some pattern => (slice s.text pattern).map fun pattern =>
    requireStatement specifier (some pattern)
  | none => return requireStatement specifier none

def requires (s : Source) (plan : Plan) (edits : List Edit) (dedent : Nat) :
    Option (List Text) :=
  plan.dependencies.mapM (require s edits dedent)

def renderPart (s : Source) (part : Option Span) (edits : List Edit) (dedent : Nat) :
    Option (List Text) :=
  match part with
  | some part => (render s part edits dedent).map ([·])
  | none => some []

def replacement (s : Source) (plan : Plan) (edits : List Edit) (outer inner : Nat) :
    Option (List Text) := do
  let requires ← requires s plan edits outer
  let moving ← movingPart s plan.body
  match plan.body, moving with
  | .value expression, _ =>
    let value ← render s expression edits outer
    return requires ++ [exportStatement value]
  | .statements _ _, none => return requires
  | .statements _ _, some (content, _) =>
    let (directives, rest) ← partedBody s plan.body content
    let front ← renderPart s directives edits inner
    let back ← renderPart s rest edits inner
    return front ++ requires ++ back

def moduleEdit (s : Source) (statement : Span) (plan : Plan) (edits : List Edit) (outer : Nat) :
    Option Edit := do
  let inner ← innerDedent s statement plan.body outer
  let ending ← lineEnding s statement.start
  let indent ← movedIndent s statement.start outer
  let statements ← replacement s plan edits outer inner
  return ⟨statement, (ending.text ++ indent).intercalate statements⟩

def returnEdit (s : Source) (statement argument : Span) (dedent : Nat) : Option Edit :=
  (render s argument [] dedent).map fun value => ⟨statement, exportStatement value⟩

structure Moving (s : Source) (region : Span) (directives : Option Span) (content : Span) :
    Prop where
  whole : s.text.Names content
  inside : content.within region = true
  front : ∀ part, directives = some part → s.text.Names ⟨content.start, part.stop⟩
  rest : ∀ part, directives = some part → s.text.Names ⟨part.stop, content.stop⟩

inductive Bodied (s : Source) : ModuleBody → Prop where
  | value {expression : Span} : s.text.Names expression → Bodied s (.value expression)
  | statements {region : Span} {directives : Option Span} : s.text.Names region →
      (∀ content, s.trim region = some content → Moving s region directives content) →
      Bodied s (.statements region directives)

/-- The parts of a module are parts of the text. -/
structure Planned (s : Source) (plan : Plan) : Prop where
  body : Bodied s plan.body
  specifier : ∀ dependency ∈ plan.dependencies, s.text.Names dependency.specifier
  pattern : ∀ dependency ∈ plan.dependencies, ∀ part, dependency.parameter = some part →
    s.text.Names part

section

variable {s : Source} {body : ModuleBody} {region : Span} {directives : Option Span} {plan : Plan}
  {edits : List Edit} {lo hi : Nat}

theorem movingPart_eq (bodied : Bodied s body) (short : s.text.byteLength < offsetLimit) :
    movingPart s body = some (s.movingPart body) := by
  cases bodied with
  | value _ => rfl
  | @statements region directives names moves =>
      rw [movingPart, trim_eq names short, Source.movingPart]
      cases found : s.trim region with
      | none => rfl
      | some content =>
          have moving := moves content found
          have indent := blockIndent_eq names moving.whole moving.inside short
          simp only [indent, Option.bind_eq_bind, Option.bind_some]
          rfl

theorem Bodied.moving {content : Span} {indent : Nat}
    (bodied : Bodied s (.statements region directives))
    (moves : s.movingPart (.statements region directives) = some (content, indent)) :
    Moving s region directives content := by
  cases bodied with
  | statements names each =>
      obtain ⟨_, found, same⟩ := Option.map_eq_some_iff.mp moves
      cases same
      exact each content found

theorem partedBody_eq {content : Span} (moving : Moving s region directives content)
    (short : s.text.byteLength < offsetLimit) :
    partedBody s (.statements region directives) content =
      some (s.partedBody (.statements region directives) content) := by
  cases directives with
  | none => rfl
  | some part =>
      rw [partedBody, trim_eq (moving.rest part rfl) short]
      rfl

theorem partedBody_names {content : Span} (moving : Moving s region directives content) :
    let parted := s.partedBody (.statements region directives) content
    (∀ span, parted.1 = some span → s.text.Names span) ∧
      ∀ span, parted.2 = some span → s.text.Names span := by
  cases directives with
  | none =>
      constructor
      · rintro span ⟨⟩
      · rintro span ⟨⟩
        exact moving.whole
  | some part =>
      constructor
      · rintro span ⟨⟩
        exact moving.front part rfl
      · intro span trimmed
        obtain ⟨before, inner, after, text, place⟩ := moving.rest part rfl
        exact (Text.trim_holds text place trimmed).1.names

theorem movedIndent_eq {offset dedent : Nat} (boundary : s.text.Boundary offset)
    (short : s.text.byteLength < offsetLimit) :
    movedIndent s offset dedent = some (s.movedIndent offset dedent) := by
  rw [movedIndent, lineIndent_eq short boundary]
  exact stripIndent_eq ..

theorem innerDedent_eq {statement : Span} {dedent : Nat} (bodied : Bodied s body)
    (boundary : s.text.Boundary statement.start) (short : s.text.byteLength < offsetLimit) :
    innerDedent s statement body dedent = some (s.innerDedent statement body dedent) := by
  have width : Text.byteLength (s.movedIndent statement.start dedent) =
      (s.movedIndent statement.start dedent).length := by
    apply Text.byteLength_of_indent
    intro c member
    exact List.all_eq_true.mp List.all_takeWhile c (List.mem_of_mem_drop member)
  simp only [innerDedent, movedIndent_eq boundary short, movingPart_eq bodied short, width,
    Option.bind_eq_bind, Option.bind_some, Source.innerDedent]
  cases s.movingPart body <;> rfl

theorem mapM_some {α β : Type} {f : α → Option β} {g : α → β} {items : List α}
    (each : ∀ item ∈ items, f item = some (g item)) : items.mapM f = some (items.map g) := by
  induction items with
  | nil => rfl
  | cons item rest ih =>
      rw [List.forall_mem_cons] at each
      simp [List.mapM_cons, each.1, ih each.2]

theorem requires_eq {dedent : Nat} (planned : Planned s plan) (apart : Apart s.text lo edits hi)
    (short : s.text.byteLength < offsetLimit) :
    requires s plan edits dedent = some (s.requires plan edits dedent) := by
  apply mapM_some
  intro dependency member
  rw [require, render_eq (planned.specifier dependency member) apart short]
  cases received : dependency.parameter with
  | none => rfl
  | some pattern =>
      have sliced := slice_eq (planned.pattern dependency member pattern received)
      simp only [sliced, Option.bind_eq_bind, Option.bind_some]
      rfl

theorem renderPart_eq {part : Option Span} {dedent : Nat}
    (names : ∀ span, part = some span → s.text.Names span) (apart : Apart s.text lo edits hi)
    (short : s.text.byteLength < offsetLimit) :
    renderPart s part edits dedent = some (part.map (s.render · edits dedent)).toList := by
  cases part with
  | none => rfl
  | some span =>
      rw [renderPart, render_eq (names span rfl) apart short]
      rfl

theorem replacement_eq {outer inner : Nat} (planned : Planned s plan)
    (apart : Apart s.text lo edits hi) (short : s.text.byteLength < offsetLimit) :
    replacement s plan edits outer inner = some (s.replacement plan edits outer inner) := by
  have bodied := planned.body
  simp only [replacement, requires_eq planned apart short, movingPart_eq bodied short,
    Option.bind_eq_bind, Option.bind_some, Source.replacement]
  cases body : plan.body with
  | value expression =>
      rw [body] at bodied
      cases bodied with
      | value names =>
          simp only [render_eq names apart short, Option.bind_some]
          rfl
  | statements region directives =>
      rw [body] at bodied
      cases moves : s.movingPart (.statements region directives) with
      | none => rfl
      | some moving =>
          obtain ⟨content, depth⟩ := moving
          have moving := bodied.moving moves
          obtain ⟨front, back⟩ := partedBody_names moving
          simp only [partedBody_eq moving short, renderPart_eq front apart short,
            renderPart_eq back apart short, Option.bind_some]
          rfl

theorem moduleEdit_eq {statement : Span} {outer : Nat} (planned : Planned s plan)
    (boundary : s.text.Boundary statement.start) (apart : Apart s.text lo edits hi)
    (short : s.text.byteLength < offsetLimit) :
    moduleEdit s statement plan edits outer = some (s.moduleEdit statement plan edits outer) := by
  simp only [moduleEdit, innerDedent_eq planned.body boundary short, lineEnding_eq short boundary,
    movedIndent_eq boundary short, replacement_eq planned apart short, Option.bind_eq_bind,
    Option.bind_some]
  rfl

theorem returnEdit_eq {statement argument : Span} {dedent : Nat}
    (names : s.text.Names argument) (short : s.text.byteLength < offsetLimit) :
    returnEdit s statement argument dedent = some (s.returnEdit statement argument dedent) := by
  have none : Apart s.text 0 [] 0 := .nil (Nat.le_refl 0)
  rw [returnEdit, render_eq names none short]
  rfl

end

section

variable {job : Job} {mode : Mode} {p : Position} {path : List Node} {call : Node} {plan : Plan}

theorem value_names {value : Span} (reaches : Node.Reaches job.root path call)
    (amd : isAmd call = true) (parsed : readProgram mode job.source.text = .ok job.root)
    (found : moduleBody? call = some (.value value)) : job.source.text.Names value := by
  obtain ⟨factory, last, kind⟩ := Job.moduleBody_value found
  have toFactory := reaches.child (mem_children_of_getLast? amd last)
  rcases kind with rfl | ⟨span, parts, bodySpan, statement, n, rfl, ending, rfl⟩
  · exact toFactory.names parsed
  · obtain ⟨_, toValue⟩ := Job.reaches_conciseValue ending
    exact (toFactory.trans toValue).names parsed

theorem statements_bodied {s : Source} {region : Span} {directives : Option Span}
    (amd : isAmd call = true)
    (nested : Nested s.text call.span.start call.children call.span.stop)
    (found : moduleBody? call = some (.statements region directives)) :
    Bodied s (.statements region directives) := by
  obtain ⟨factory, heads, span, body, hasBody, rfl, rfl⟩ :=
    moduleBody_statements amd nested found
  have inBody := hasBody.nested nested amd
  apply Bodied.statements hasBody.encloses.names
  intro content trimmed
  have moves : s.movingPart (.statements (Amd.interior span) (directiveSpan body)) =
      some (content, _) := Source.movingPart_of_trim trimmed
  obtain ⟨holds, inside, covers⟩ := Job.movingPart_holds hasBody.encloses inBody moves
  have sides (part : Span) (opens : directiveSpan body = some part) :=
    Job.directives_part holds inBody covers opens
  exact ⟨holds.names, inside, fun part opens => (sides part opens).1.names,
    fun part opens => (sides part opens).2⟩

theorem planned (reaches : Node.Reaches job.root path call) (unwraps : job.Unwraps p call plan)
    (parsed : readProgram mode job.source.text = .ok job.root) : Planned job.source plan where
  body := by
    have found := unwraps.moduleBody
    cases body : plan.body with
    | value value =>
        rw [body] at found
        exact .value (value_names reaches unwraps.amd parsed found)
    | statements region directives =>
        rw [body] at found
        exact statements_bodied unwraps.amd (reaches.placed parsed).2 found
  specifier dependency member := by
    obtain ⟨array, above, element, toElement, span⟩ :=
      Job.specifier_reaches reaches unwraps member
    rw [← span]
    exact toElement.names parsed
  pattern dependency member part received := by
    have inList : some part ∈ plan.dependencies.map Dependency.parameter :=
      List.mem_map.mpr ⟨dependency, member, received⟩
    obtain ⟨below, k, toPattern, rfl⟩ := Job.reaches_dependency unwraps inList
    exact (reaches.trans toPattern).names parsed

end

end AmdUnwrap.Checked
