import AmdUnwrap.Proofs.Emission

namespace AmdUnwrap
open Amd

theorem Nested.eq_of_overlap {text : Text} {lo hi : Nat} {ns : List Node} {a b : Node} {span : Span}
    (nested : Nested text lo ns hi) (first : a ∈ ns) (second : b ∈ ns)
    (filled : span.start < span.stop) (inFirst : span.within a.span = true)
    (inSecond : span.within b.span = true) : a = b := by
  rw [Span.within_iff] at inFirst inSecond
  induction nested with
  | nil _ => cases first
  | node _ _ _ rest _ ih =>
      rcases List.mem_cons.mp first with rfl | first' <;>
        rcases List.mem_cons.mp second with rfl | second'
      · rfl
      · have := (rest.bounds b second').1
        omega
      · have := (rest.bounds a first').1
        omega
      · exact ih first' second'

namespace Node.Reaches

variable {text : Text} {root n m k : Node} {path path' : List Node} {span : Span}

theorem within (reaches : Reaches root path n)
    (nested : Nested text root.span.start root.children root.span.stop) :
    Nested text n.span.start n.children n.span.stop ∧ n.span.within root.span = true := by
  induction reaches with
  | top => exact ⟨nested, Span.within_iff.mpr ⟨Nat.le_refl _, Nat.le_refl _⟩⟩
  | child _ member ih =>
      obtain ⟨low, -, high⟩ := ih.1.bounds _ member
      exact ⟨(ih.1.mem member).2, Span.within_trans (Span.within_iff.mpr ⟨low, high⟩) ih.2⟩

theorem down (reaches : Reaches root path n) :
    n = root ∨ ∃ c ∈ root.children, ∃ below, Reaches c below n := by
  induction reaches with
  | top => exact .inl rfl
  | child _ member ih =>
      rcases ih with rfl | ⟨c, inRoot, below, reaches⟩
      · exact .inr ⟨_, member, [], .top⟩
      · exact .inr ⟨c, inRoot, _, reaches.child member⟩

theorem comparable (first : Reaches root path m) (second : Reaches root path' k)
    (nested : Nested text root.span.start root.children root.span.stop)
    (filled : span.start < span.stop) (inFirst : span.within m.span = true)
    (inSecond : span.within k.span = true) :
    (∃ below, Reaches k below m) ∨ ∃ below, Reaches m below k := by
  induction root using Node.induction generalizing path path' with
  | step root ih =>
      rcases first.down with rfl | ⟨c, inRoot, below, lower⟩
      · exact .inr ⟨_, second⟩
      rcases second.down with rfl | ⟨c', inRoot', below', lower'⟩
      · exact .inl ⟨_, first⟩
      have nested₁ := (nested.mem inRoot).2
      have nested₂ := (nested.mem inRoot').2
      obtain rfl := nested.eq_of_overlap inRoot inRoot' filled
        (Span.within_trans inFirst (lower.within nested₁).2)
        (Span.within_trans inSecond (lower'.within nested₂).2)
      exact ih c inRoot lower lower' nested₁

end Node.Reaches

namespace Job

/-- Stays where it is wherever it stands. -/
def Unmoved (job : Job) (n : Node) : Prop :=
  (∀ path, ¬ Converts job.root job.policy path n) ∧ ∀ p, ¬ Returns p n

theorem unmoved_of_kind {job : Job} {n : Node} (statement : n.kind ≠ .expressionStatement)
    (return_ : n.kind ≠ .returnStatement) : Unmoved job n :=
  ⟨fun _ => not_converts_of_kind statement, fun _ => not_returns_of_kind return_⟩

end Job

theorem Node.Reaches.unparenthesized {text : Text} {n c : Node} {path : List Node}
    (reaches : Reaches n path c) (nested : Nested text n.span.start n.children n.span.stop) :
    c.span.within n.unparenthesized.span = true ∨ c.kind = .parenthesized := by
  induction n using unparenthesized.induct generalizing path with
  | case1 parens inner ih =>
      rcases reaches.down with rfl | ⟨m, member, below, lower⟩
      · exact .inr rfl
      · obtain rfl := List.mem_singleton.mp member
        exact ih lower (nested.mem member).2
  | case2 n other =>
      rw [Node.unparenthesized]
      · exact .inl (reaches.within nested).2
      · exact other

namespace Job

variable {job : Job} {call factory c : Node} {body : ModuleBody} {e : Ending} {path : List Node}
  {span : Span}

/-- A call of the text with its factory and the ending of what replaces it. -/
structure Ends (job : Job) (call factory : Node) (body : ModuleBody) (e : Ending) : Prop where
  amd : isAmd call = true
  formed : call.WellFormed
  nested : Nested job.source.text call.span.start call.children call.span.stop
  last : (arguments call).getLast? = some factory
  found : moduleBody? call = some body
  ends : job.source.ending body = some e

theorem Ends.inFactory (h : job.Ends call factory body e) :
    Nested job.source.text factory.span.start factory.children factory.span.stop :=
  (h.nested.mem (mem_children_of_getLast? h.amd h.last)).2

theorem within_value_or_unmoved {span' bodySpan statement : Span} {parts : List Node} {n : Node}
    (inFactory : Nested job.source.text span'.start parts span'.stop)
    (formed : (Node.mk (.arrow false true) span' parts).WellFormed)
    (ending : parts.getLast? = some (.mk .functionBody bodySpan
      [.mk .expressionStatement statement [n]]))
    (reaches : Node.Reaches (.mk (.arrow false true) span' parts) path c)
    (filled : span.start < span.stop) (overlap : span.within c.span = true)
    (inside : span.within n.unparenthesized.span = true) :
    c.span.within n.unparenthesized.span = true ∨ Unmoved job c := by
  have atBody : Node.mk .functionBody bodySpan [.mk .expressionStatement statement [n]] ∈
    (Node.mk (.arrow false true) span' parts).children := List.mem_of_getLast? ending
  have inBody := (inFactory.mem atBody).2
  have inStatement := (inBody.mem (List.mem_singleton_self _)).2
  have inValue := (inStatement.mem (List.mem_singleton_self n)).2
  obtain ⟨_, value⟩ := n.reaches_unparenthesized
  have toStatement : Node.Reaches (.mk .functionBody bodySpan
      [.mk .expressionStatement statement [n]]) _ (.mk .expressionStatement statement [n]) :=
    .child .top (List.mem_singleton_self _)
  have toValue : Node.Reaches _ _ n := toStatement.child (List.mem_singleton_self n)
  rcases reaches.down with rfl | ⟨m, inParts, below, lower⟩
  · exact .inr (unmoved_of_kind (by rintro ⟨⟩) (by rintro ⟨⟩))
  obtain rfl := inFactory.eq_of_overlap inParts atBody filled
    (Span.within_trans overlap (lower.within (inFactory.mem inParts).2).2)
    (Span.within_trans inside ((toValue.trans value).within inBody).2)
  rcases lower.down with rfl | ⟨st, inStatements, below, lower'⟩
  · exact .inr (unmoved_of_kind (by rintro ⟨⟩) (by rintro ⟨⟩))
  obtain rfl := List.mem_singleton.mp inStatements
  rcases lower'.down with rfl | ⟨v, inValues, below, deep⟩
  · refine Classical.or_iff_not_imp_right.mpr fun moved => ?_
    -- A statement that could be converted holds a call, which is the value by itself.
    have amd' : isAmd n = true := by
      by_contra plain
      refine moved ⟨fun _ => ?_, fun _ => not_returns_of_kind (by rintro ⟨⟩)⟩
      rintro ⟨_, _, _, _, same, amd', -⟩
      cases same
      exact plain amd'
    obtain ⟨heads, value', parts', -⟩ := formed.endsInBody
    rw [parts', List.getLast?_concat] at ending
    cases ending
    have alone : n.unparenthesized = n := by
      rw [Node.unparenthesized]
      rintro _ _ rfl
      cases amd'
    rw [alone]
    exact Span.within_iff.mpr ⟨Nat.le_refl _, Nat.le_refl _⟩
  obtain rfl := List.mem_singleton.mp inValues
  rcases deep.unparenthesized inValue with within | parens
  · exact .inl within
  · exact .inr (unmoved_of_kind (by rw [parens]; rintro ⟨⟩) (by rw [parens]; rintro ⟨⟩))

theorem Ends.within_or_unmoved (h : job.Ends call factory body e)
    (reaches : Node.Reaches factory path c) (filled : span.start < span.stop)
    (overlap : span.within c.span = true) (inside : span.within e.part = true) :
    c.span.within e.part = true ∨ Unmoved job c := by
  have inFactory := h.inFactory
  obtain ⟨amd, formed, nested, last, found, ends⟩ := h
  have member := mem_children_of_getLast? amd last
  cases body with
  | value value =>
      cases ends
      obtain ⟨factory', last', kind⟩ := moduleBody_value found
      cases last.symm.trans last'
      rcases kind with rfl | ⟨span', parts, bodySpan, statement, n, rfl, ending, rfl⟩
      · exact .inl (reaches.within inFactory).2
      exact within_value_or_unmoved inFactory (formed.child member) ending reaches filled overlap
        inside
  | statements region directives =>
      obtain ⟨factory', heads, bodySpan, statements, hasBody, rfl, rfl⟩ :=
        moduleBody_statements amd nested found
      cases last.symm.trans hasBody.last
      obtain ⟨-, inBody, listed⟩ :=
        ending_statements hasBody.encloses (hasBody.nested nested amd) ends
      have atBody := (hasBody.members amd).2
      rcases reaches.down with rfl | ⟨m, inParts, below, reaches⟩
      · have braced := hasBody.braced
        exact .inr (unmoved_of_kind (fun same => by rw [same] at braced; cases braced)
          (fun same => by rw [same] at braced; cases braced))
      have around := Span.within_trans overlap (reaches.within (inFactory.mem inParts).2).2
      obtain rfl := inFactory.eq_of_overlap inParts atBody filled around
        (Span.within_trans inside inBody)
      rcases reaches.down with rfl | ⟨st, inStatements, below, reaches⟩
      · exact .inr (unmoved_of_kind (by rintro ⟨⟩) (by rintro ⟨⟩))
      have bounds := (reaches.within ((inFactory.mem atBody).2.mem inStatements).2).2
      have wide := Span.within_iff.mp (Span.within_trans overlap bounds)
      rcases listed st inStatements (by omega) with within | before
      · exact .inl (Span.within_trans bounds within)
      · have low := Span.within_iff.mp inside
        omega

theorem Ends.within (h : job.Ends call factory body e) : e.part.within factory.span = true := by
  have inFactory := h.inFactory
  obtain ⟨amd, -, nested, last, found, ends⟩ := h
  cases body with
  | value value =>
      cases ends
      obtain ⟨factory', last', kind⟩ := moduleBody_value found
      cases last.symm.trans last'
      rcases kind with rfl | ⟨span', parts, bodySpan, statement, n, rfl, ending, rfl⟩
      · exact Span.within_iff.mpr ⟨Nat.le_refl _, Nat.le_refl _⟩
      · obtain ⟨_, reaches⟩ := reaches_conciseValue ending
        exact (reaches.within inFactory).2
  | statements region directives =>
      obtain ⟨factory', heads, bodySpan, statements, hasBody, rfl, rfl⟩ :=
        moduleBody_statements amd nested found
      cases last.symm.trans hasBody.last
      obtain ⟨-, inBody, -⟩ := ending_statements hasBody.encloses (hasBody.nested nested amd) ends
      exact Span.within_trans inBody
        ((Node.Reaches.top.child (hasBody.members amd).2).within inFactory).2

theorem Ends.entered {n : Node} {below : List Node} (h : job.Ends call factory body e)
    (filled : n.span.start < n.span.stop) (inside : n.span.within e.part = true) (p : Position)
    (upper : Node.Reaches factory path c) (lower : Node.Reaches c below n) :
    ∃ q k rest, job.Visits p c q k ∧ k.span.within e.part = true ∧ Node.Reaches k rest n := by
  induction c using Node.induction generalizing p path below with
  | step c ih =>
      have overlap := (lower.within (upper.within h.inFactory).1).2
      rcases h.within_or_unmoved upper filled overlap inside with within | unmoved
      · exact ⟨p, c, _, .here, within, lower⟩
      · rcases lower.down with rfl | ⟨m, member, rest, deep⟩
        · exact ⟨p, _, _, .here, inside, lower⟩
        · obtain ⟨q, k, rest, visits, within, reaches⟩ :=
            ih m member (p.below c) (upper.child member) deep
          exact ⟨q, k, rest, .down (unmoved.1 _) (unmoved.2 _) member visits, within, reaches⟩

theorem reaches_pattern {kind : Node.Kind} {functionSpan pattern : Span} {parts : List Node}
    (member : pattern ∈ parts.flatMap fun
      | .mk .parameters _ items => items.filterMap fun
        | .mk .parameter _ (pattern :: _) => some pattern.span
        | _ => none
      | _ => []) :
    ∃ path k, Node.Reaches (.mk kind functionSpan parts) path k ∧ k.span = pattern := by
  obtain ⟨part, inParts, member⟩ := List.mem_flatMap.mp member
  split at member
  · obtain ⟨item, inItems, member⟩ := List.mem_filterMap.mp member
    split at member
    next _ first rest =>
      cases member
      have toPart : Node.Reaches (.mk kind functionSpan parts) _ _ := .child .top inParts
      have toItem := toPart.child inItems
      exact ⟨_, first, toItem.child List.mem_cons_self, rfl⟩
    · cases member
  · cases member

theorem reaches_parameter {pattern : Span} (member : pattern ∈ parameterPatterns factory) :
    ∃ path k, Node.Reaches factory path k ∧ k.span = pattern := by
  unfold parameterPatterns at member
  split at member
  · exact reaches_pattern member
  · exact reaches_pattern member
  · cases member

theorem reaches_dependency {plan : Plan} {p : Position} {part : Span}
    (unwraps : job.Unwraps p call plan)
    (received : some part ∈ plan.dependencies.map Dependency.parameter) :
    ∃ path k, Node.Reaches call path k ∧ k.span = part := by
  obtain ⟨notes, decided⟩ := unwraps.decided
  rcases decision_lists decided with ⟨-, empty⟩ | ⟨operand, others, factory, elements, split, last,
    -, listed⟩
  · rw [empty] at received
    cases received
  · rw [listed, paired] at received
    simp only [List.map_map, List.mem_map, List.mem_filter] at received
    obtain ⟨⟨element, index⟩, -, same⟩ := received
    obtain ⟨path, k, reaches, span⟩ := reaches_parameter (List.mem_of_getElem? same)
    have ending : (arguments call).getLast? = some factory := by
      rw [split, List.getLast?_cons, last]
      rfl
    have member := mem_children_of_getLast? unwraps.amd ending
    exact ⟨_, k, (Node.Reaches.top.child member).trans reaches, span⟩

theorem texts_binding {plan : Plan} (p : Position) (span : Span) {part : Span}
    (received : some part ∈ plan.dependencies.map Dependency.parameter) :
    ∃ texts specifier later, job.texts p span call plan =
      texts ++ requireStatement specifier (some (job.source.slice part)) :: later := by
  obtain ⟨dependency, member, same⟩ := List.mem_map.mp received
  obtain ⟨front, back, split⟩ := List.append_of_mem member
  have requires (edits : List Edit) (dedent : Nat) : ∃ texts specifier later,
      job.source.requires plan edits dedent =
        texts ++ requireStatement specifier (some (job.source.slice part)) :: later := by
    rw [Source.requires, split, List.map_append, List.map_cons, same, Option.map_some]
    exact ⟨_, _, _, rfl⟩
  have replacement (edits : List Edit) (outer inner : Nat) : ∃ texts later,
      job.source.replacement plan edits outer inner =
        texts ++ (job.source.requires plan edits outer ++ later) := by
    simp only [Source.replacement]
    split
    · exact ⟨[], _, rfl⟩
    · exact ⟨[], [], by simp⟩
    · exact ⟨_, _, List.append_assoc ..⟩
  obtain ⟨texts, later, all⟩ := replacement (job.foundIn p span call plan).edits p.dedent
    (job.source.innerDedent span plan.body p.dedent)
  obtain ⟨texts', specifier, later', parts⟩ :=
    requires (job.foundIn p span call plan).edits p.dedent
  refine ⟨texts ++ texts', specifier, later' ++ later, ?_⟩
  rw [Job.texts, all, parts]
  simp only [List.append_assoc, List.cons_append]

/-- The node is in a call that is replaced, outside of all that comes of it into the output but
elements of its list. -/
def LeftOut (job : Job) (n : Node) : Prop :=
  ∃ p span call plan path before after,
    job.Comes (.searched p) (.mk .expressionStatement span [call]) before after ∧
    job.Unwraps p call plan ∧ Node.Reaches call path n ∧
    (∀ e, job.source.ending plan.body = some e → n.span.within e.part = false) ∧
    ∀ part, some part ∈ plan.dependencies.map Dependency.parameter → n.span.within part = false

def Emitted (job : Job) (n : Node) : Prop := ∃ w before after, job.Comes w n before after

theorem Unwraps.last {p : Position} {plan : Plan} (unwraps : job.Unwraps p call plan) :
    ∃ factory, (arguments call).getLast? = some factory := by
  obtain ⟨factory, last, -⟩ := Option.bind_eq_some_iff.mp unwraps.moduleBody
  exact ⟨factory, last⟩

section

variable {mode : Mode} {p : Position} {plan : Plan} {n : Node} {before after : Text}

theorem Comes.ending
    (comes : job.Comes (.searched p) (.mk .expressionStatement span [call]) before after)
    (unwraps : job.Unwraps p call plan)
    (parsed : readProgram mode job.source.text = .ok job.root)
    (ends : job.source.ending plan.body = some e) (reaches : Node.Reaches call path n)
    (filled : n.span.start < n.span.stop) (inside : n.span.within e.part = true) :
    ∃ k path below, Node.Reaches call path k ∧ Node.Reaches k below n ∧ job.Emitted k := by
  obtain ⟨factory, last⟩ := unwraps.last
  have formed := comes.searches.reaches.wellFormed (readProgram_wellFormed parsed)
  have member := List.mem_singleton_self call
  obtain ⟨stands, nested⟩ := (comes.placed parsed).2.mem member
  have h : job.Ends call factory plan.body e :=
    ⟨unwraps.amd, formed.child member, nested, last, unwraps.moduleBody, ends⟩
  have member := mem_children_of_getLast? unwraps.amd last
  -- What lies in the ending is below the factory.
  obtain ⟨below, lower⟩ : ∃ below, Node.Reaches factory below n := by
    rcases reaches.down with rfl | ⟨m, inCall, below, lower⟩
    · have closed := stands.closed (kind_of_isAmd unwraps.amd) factory member
      have bounds := Span.within_iff.mp (Span.within_trans inside h.within)
      omega
    · obtain rfl := nested.eq_of_overlap inCall member filled
        (lower.within (nested.mem inCall).2).2 (Span.within_trans inside h.within)
      exact ⟨below, lower⟩
  obtain ⟨q, k, rest, visits, kInside, deep⟩ :=
    h.entered filled inside ((job.within p span call plan).below call) .top lower
  obtain ⟨above, toK, -⟩ := visits.reaches
  have wide := Span.within_iff.mp (deep.within (toK.within h.inFactory).1).2
  obtain ⟨texts, all⟩ := job.source.replacement_ending (job.foundIn p span call plan).edits span
    p.dedent ends
  exact ⟨k, _, rest, (Node.Reaches.top.child member).trans toK, deep, _, _, _,
    .inside comes unwraps last visits (by omega) ends kInside all⟩

theorem Comes.binding
    (comes : job.Comes (.searched p) (.mk .expressionStatement span [call]) before after)
    (unwraps : job.Unwraps p call plan)
    (parsed : readProgram mode job.source.text = .ok job.root) {part : Span}
    (received : some part ∈ plan.dependencies.map Dependency.parameter)
    (reaches : Node.Reaches call path n) (filled : n.span.start < n.span.stop)
    (inside : n.span.within part = true) :
    ∃ k path below, Node.Reaches call path k ∧ Node.Reaches k below n ∧ job.Emitted k := by
  obtain ⟨path', k, toK, rfl⟩ := reaches_dependency unwraps received
  obtain ⟨-, nested⟩ := (comes.placed parsed).2.mem (List.mem_singleton_self call)
  obtain ⟨texts, specifier, later, all⟩ := job.texts_binding p span received
  have self : n.span.within n.span = true := Span.within_iff.mpr ⟨Nat.le_refl _, Nat.le_refl _⟩
  rcases reaches.comparable toK nested filled self inside with ⟨below, deep⟩ | ⟨below, deep⟩
  · have wide := Span.within_iff.mp inside
    exact ⟨k, path', below, toK, deep, _, _, _,
      .parameter comes unwraps toK (by omega) received all⟩
  · have same : n.span = k.span := by
      have wide := Span.within_iff.mp inside
      have narrow := Span.within_iff.mp (deep.within (reaches.within nested).1).2
      cases span₁ : n.span
      cases span₂ : k.span
      simp only [span₁, span₂] at wide narrow
      simp only [Span.mk.injEq]
      omega
    rw [← same] at received all
    exact ⟨n, path, [], reaches, .top, _, _, _,
      .parameter comes unwraps reaches filled received all⟩

end

/-- What is below an emitted node is emitted as well, or left out with a call. -/
theorem Comes.covers {mode : Mode} {w : Way} {k n : Node} {before after : Text}
    (comes : job.Comes w k before after)
    (parsed : readProgram mode job.source.text = .ok job.root) (reaches : Node.Reaches k path n)
    (filled : n.span.start < n.span.stop) : job.Emitted n ∨ job.LeftOut n := by
  -- The induction is on the tree around the emitted node, since it goes on below nodes further in.
  suffices all : ∀ top k : Node, ∀ {path below w before after}, Node.Reaches top path k →
      job.Comes w k before after → Node.Reaches k below n → job.Emitted n ∨ job.LeftOut n from
    all k k .top comes reaches
  clear comes reaches
  intro top
  induction top using Node.induction with
  | step top ih =>
      intro k path below w before after upper comes lower
      rcases upper.down with rfl | ⟨c, inTop, _, upper⟩
      case inr => exact ih c inTop k upper comes lower
      rcases lower.down with rfl | ⟨c, member, rest, inner⟩
      · exact .inl ⟨w, before, after, comes⟩
      have nested := (comes.placed parsed).2
      have wide := Span.within_iff.mp (inner.within (nested.mem member).2).2
      have some : c.span.start < c.span.stop := by omega
      by_cases stays : job.Stays w k
      · exact ih c member c .top (comes.child stays member some) inner
      cases w with
      | copied dedent => exact absurd trivial stays
      | searched p =>
          rw [Stays, not_and_or, Classical.not_not, Classical.not_not] at stays
          rcases stays with ⟨span, call, notes, plan, rfl, amd, among, decided⟩ |
            ⟨span, argument, rfl, inFactory⟩
          · obtain rfl := List.mem_singleton.mp member
            have unwraps : job.Unwraps p c plan := ⟨amd, among, notes, decided⟩
            have onward (found : ∃ k path below, Node.Reaches c path k ∧ Node.Reaches k below n ∧
                job.Emitted k) : job.Emitted n ∨ job.LeftOut n := by
              obtain ⟨k, _, _, toK, deep, _, _, _, comes⟩ := found
              exact ih c member k toK comes deep
            by_cases ending : ∃ e, job.source.ending plan.body = .some e ∧
                n.span.within e.part = true
            · obtain ⟨e, ends, inside⟩ := ending
              exact onward (comes.ending unwraps parsed ends inner filled inside)
            by_cases binding : ∃ part, .some part ∈ plan.dependencies.map Dependency.parameter ∧
                n.span.within part = true
            · obtain ⟨part, received, inside⟩ := binding
              exact onward (comes.binding unwraps parsed received inner filled inside)
            · refine .inr ⟨p, span, c, plan, rest, before, after, comes, unwraps, inner, ?_, ?_⟩
              · intro e ends
                exact Bool.eq_false_iff.mpr fun inside => ending ⟨e, ends, inside⟩
              · intro part received
                exact Bool.eq_false_iff.mpr fun inside => binding ⟨part, received, inside⟩
          · obtain rfl := List.mem_singleton.mp member
            exact ih c member c .top (comes.returned inFactory some) inner

end Job

end AmdUnwrap
