import AmdUnwrap.Proofs.Dependency
import AmdUnwrap.Proofs.Frame

namespace AmdUnwrap
open Amd

namespace Job

variable {job : Job} {p : Position} {n : Node}

/-- The nodes that the search comes to, inside the calls that it replaces too. -/
inductive Searches (job : Job) : Position → Node → Prop where
  | top : job.Searches .top job.root
  | child {p : Position} {n m : Node} : job.Searches p n →
      ¬ Converts job.root job.policy p.path n → ¬ Returns p n → m ∈ n.children →
      job.Searches (p.below n) m
  | inside {p : Position} {span : Span} {call : Node} {notes : List Event} {plan : Plan} :
      job.Searches p (.mk .expressionStatement span [call]) → isAmd call = true →
      p.amongStatements = true → decision job.root job.policy call = .convert notes plan →
      job.Searches (job.within p span call plan) call

theorem Visits.searches {q : Position} {k : Node} (visits : job.Visits p n q k)
    (searches : job.Searches p n) : job.Searches q k := by
  induction visits with
  | here => exact searches
  | down still quiet member _ ih => exact ih (searches.child still quiet member)

theorem search_still (done : (job.search p n).failure = none)
    (still : ¬ Converts job.root job.policy p.path n) (quiet : ¬ Returns p n) :
    (job.searchAll (p.below n) n.children).failure = none ∧
      (job.search p n).edits = (job.searchAll (p.below n) n.children).edits := by
  rcases search_cases done with ⟨span, call, notes, plan, same, amd, among, decided, -, -⟩ |
    ⟨span, argument, same, inside, -⟩ | ⟨-, -, done', edits⟩
  · exact absurd ⟨span, call, notes, plan, same, amd, among, decided⟩ still
  · exact absurd ⟨span, argument, same, inside⟩ quiet
  · exact ⟨done', edits⟩

theorem search_converted {span : Span} {call : Node} {notes : List Event} {plan : Plan}
    (done : (job.search p (.mk .expressionStatement span [call])).failure = none)
    (amd : isAmd call = true) (among : p.amongStatements = true)
    (decided : decision job.root job.policy call = .convert notes plan) :
    (job.foundIn p span call plan).failure = none ∧
      (job.search p (.mk .expressionStatement span [call])).edits =
        [job.source.moduleEdit span plan (job.foundIn p span call plan).edits p.dedent] := by
  rcases search_cases done with ⟨span', call', notes', plan', same, -, -, decided', done', edits⟩ |
    ⟨span', argument, same, -⟩ | ⟨still, -⟩
  · cases same
    cases decided.symm.trans decided'
    exact ⟨done', edits⟩
  · cases same
  · exact absurd ⟨span, call, notes, plan, rfl, amd, among, decided⟩ still

theorem search_returned {span : Span} {argument : Node} (inside : p.inFactory = true) :
    (job.search p (.mk .returnStatement span [argument])).edits =
      [job.source.returnEdit span argument.span p.dedent] := by
  simp [search, inside]

theorem Searches.done (searches : job.Searches p n)
    (done : (job.search .top job.root).failure = none) : (job.search p n).failure = none := by
  induction searches with
  | top => exact done
  | child _ still quiet member ih =>
      exact searchAll_failure.mp (search_still ih still quiet).1 _ member
  | inside _ amd among decided ih =>
      exact searchAll_failure.mp (search_converted ih amd among decided).1 _
        (List.mem_singleton_self _)

/-- Where a node that the search comes to stands, and the calls around it that are replaced. -/
structure Placed (text : Text) (p : Position) (n : Node) : Prop where
  stands : n.kind ≠ .program → n.Stands text
  nested : Nested text n.span.start n.children n.span.stop
  inside : ∀ span ∈ p.converting, span.start ≤ n.span.start

theorem Searches.placed {mode : Mode} {text : Text} (searches : job.Searches p n)
    (parsed : readProgram mode text = .ok job.root) : Placed text p n := by
  induction searches with
  | top =>
      obtain ⟨body, root, nested⟩ := readProgram_nested parsed
      rw [root]
      exact ⟨fun other => absurd rfl other, nested, nofun⟩
  | child _ _ _ member ih =>
      obtain ⟨stands, nested⟩ := ih.nested.mem member
      have start := (ih.nested.bounds _ member).1
      refine ⟨fun _ => stands, nested, fun span around => ?_⟩
      exact Nat.le_trans (ih.inside span around) start
  | inside _ _ _ _ ih =>
      obtain ⟨stands, nested⟩ := ih.nested.mem (List.mem_singleton_self _)
      have start := (ih.nested.bounds _ (List.mem_singleton_self _)).1
      refine ⟨fun _ => stands, nested, List.forall_mem_cons.mpr ⟨Nat.le_refl _, ?_⟩⟩
      intro span around
      exact Nat.le_trans (ih.inside span around) start

def inBody (job : Job) (p : Position) (span : Span) (call : Node) (plan : Plan)
    (factory functionBody : Node) : Position :=
  (((job.within p span call plan).below call).below factory).below functionBody

end Job

theorem not_converts_of_kind {root : Node} {policy : Policy} {path : List Node} {n : Node}
    (other : n.kind ≠ .expressionStatement) : ¬ Converts root policy path n := by
  rintro ⟨_, _, _, _, rfl, -⟩
  exact other rfl

theorem not_returns_of_kind {p : Position} {n : Node} (other : n.kind ≠ .returnStatement) :
    ¬ Returns p n := by
  rintro ⟨_, _, rfl, -⟩
  exact other rfl

/-- The factory of a call, with its body between two braces. -/
structure HasBody (text : Text) (call factory : Node) (heads : List Node) (span : Span)
    (body : List Node) : Prop where
  last : (arguments call).getLast? = some factory
  braced : factory.kind.isBraced = true
  parts : factory.children = heads ++ [.mk .functionBody span body]
  encloses : text.Encloses span body

theorem children_of_isAmd {call : Node} (amd : isAmd call = true) :
    ∃ target, call.children = target :: arguments call := by
  unfold isAmd at amd
  split at amd
  · exact ⟨_, rfl⟩
  · cases amd

theorem mem_children_of_getLast? {call last : Node} (amd : isAmd call = true)
    (ending : (arguments call).getLast? = some last) : last ∈ call.children := by
  obtain ⟨target, children⟩ := children_of_isAmd amd
  rw [children]
  exact List.mem_cons_of_mem _ (List.mem_of_getLast? ending)

theorem HasBody.kind_ne {text : Text} {call factory : Node} {heads body : List Node} {span : Span}
    (hasBody : HasBody text call factory heads span body) {kind : Node.Kind}
    (other : kind.isBraced = false) : factory.kind ≠ kind := by
  rintro rfl
  exact absurd hasBody.braced (Bool.eq_false_iff.mp other)

theorem HasBody.members {text : Text} {call factory : Node} {heads body : List Node} {span : Span}
    (hasBody : HasBody text call factory heads span body) (amd : isAmd call = true) :
    factory ∈ call.children ∧ Node.mk .functionBody span body ∈ factory.children := by
  constructor
  · exact mem_children_of_getLast? amd hasBody.last
  · rw [hasBody.parts]
    exact List.mem_append_right _ (List.mem_singleton_self _)

theorem factoryBody_statements {factory : Node} {region : Span} {directives : Option Span}
    (found : factoryBody? factory = some (.statements region directives)) :
    factory.kind.isBraced = true ∧ ∃ span body,
      factory.children.getLast? = some (.mk .functionBody span body) ∧
        region = interior span ∧ directives = directiveSpan body := by
  have inBraces {parts : List Node} (found : parts.getLast?.bind bracedBody? =
      some (.statements region directives)) : ∃ span body,
      parts.getLast? = some (.mk .functionBody span body) ∧
        region = interior span ∧ directives = directiveSpan body := by
    obtain ⟨last, same, found⟩ := Option.bind_eq_some_iff.mp found
    unfold bracedBody? at found
    split at found
    · cases found
      exact ⟨_, _, same, rfl, rfl⟩
    · cases found
  unfold factoryBody? at found
  split at found
  · cases found
  · exact ⟨rfl, inBraces found⟩
  · exact ⟨rfl, inBraces found⟩
  · obtain ⟨last, -, found⟩ := Option.bind_eq_some_iff.mp found
    unfold conciseValue at found
    split at found <;> cases found
  · cases found

theorem moduleBody_statements {text : Text} {call : Node} {region : Span}
    {directives : Option Span} (amd : isAmd call = true)
    (nested : Nested text call.span.start call.children call.span.stop)
    (found : moduleBody? call = some (.statements region directives)) :
    ∃ factory heads span body, HasBody text call factory heads span body ∧
      region = interior span ∧ directives = directiveSpan body := by
  unfold moduleBody? at found
  obtain ⟨factory, last, found⟩ := Option.bind_eq_some_iff.mp found
  obtain ⟨stands, -⟩ := nested.mem (mem_children_of_getLast? amd last)
  obtain ⟨braced, span, body, ending, region, directives⟩ := factoryBody_statements found
  obtain ⟨heads, span', body', parts, encloses⟩ := stands.braced braced
  rw [parts, List.getLast?_concat] at ending
  cases ending
  exact ⟨factory, heads, _, _, ⟨last, braced, parts, encloses⟩, region, directives⟩

namespace Job

variable {job : Job} {p : Position} {text : Text}

theorem searchAll_append {ns ms : List Node}
    (done : (job.searchAll p (ns ++ ms)).failure = none) :
    (job.searchAll p ns).failure = none ∧ (job.searchAll p ms).failure = none ∧
      (job.searchAll p (ns ++ ms)).edits = (job.searchAll p ns).edits ++
        (job.searchAll p ms).edits := by
  have parts := searchAll_failure.mp done
  rw [List.forall_mem_append] at parts
  have first := searchAll_failure.mpr parts.1
  have later := searchAll_failure.mpr parts.2
  refine ⟨first, later, ?_⟩
  rw [searchAll_edits done, searchAll_edits first, searchAll_edits later, List.flatMap_append]

theorem searchAll_last {ns : List Node} {last : Node} {lo hi : Nat}
    (done : (job.searchAll p (ns ++ [last])).failure = none)
    (nested : Nested text lo (ns ++ [last]) hi)
    (statement : last.kind ≠ .expressionStatement) (return_ : last.kind ≠ .returnStatement) :
    ∃ others, Apart text lo others last.span.start ∧
      (job.searchAll (p.below last) last.children).failure = none ∧
      (job.searchAll p (ns ++ [last])).edits =
        others ++ (job.searchAll (p.below last) last.children).edits := by
  obtain ⟨mid, front, rest⟩ := nested.split
  obtain ⟨first, alone, edits⟩ := searchAll_append done
  have low := (rest.bounds last (List.mem_singleton_self last)).1
  have apart := searchAll_apart front first fun n member done =>
    search_apart (front.mem member).1 (front.mem member).2 done
  have found := searchAll_failure.mp alone last (List.mem_singleton_self last)
  obtain ⟨inner, same⟩ := search_still found (not_converts_of_kind statement)
    (not_returns_of_kind return_)
  refine ⟨_, apart.reach low, inner, ?_⟩
  rw [edits, searchAll_edits alone, List.flatMap_singleton, same]

theorem foundIn_parts {span : Span} {call factory : Node} {plan : Plan} {heads body : List Node}
    {bodySpan : Span} (amd : isAmd call = true)
    (nested : Nested text call.span.start call.children call.span.stop)
    (hasBody : HasBody text call factory heads bodySpan body)
    (done : (job.foundIn p span call plan).failure = none) :
    let position := job.inBody p span call plan factory (.mk .functionBody bodySpan body)
    ∃ others, Apart text call.span.start others bodySpan.start ∧
      (job.searchAll position body).failure = none ∧
      (job.foundIn p span call plan).edits = others ++ (job.searchAll position body).edits := by
  obtain ⟨target, children⟩ := children_of_isAmd amd
  obtain ⟨front, arguments⟩ := List.getLast?_eq_some_iff.mp hasBody.last
  rw [arguments, ← List.cons_append] at children
  obtain ⟨-, inFactory⟩ := nested.mem (mem_children_of_getLast? amd hasBody.last)
  have isCall := kind_of_isAmd amd
  have found := searchAll_failure.mp done call (List.mem_singleton_self call)
  obtain ⟨calls, edits⟩ := search_still found (not_converts_of_kind (by rw [isCall]; nofun))
    (not_returns_of_kind (by rw [isCall]; nofun))
  rw [children] at calls nested edits
  obtain ⟨first, apart, functions, edits₁⟩ := searchAll_last calls nested
    (hasBody.kind_ne rfl) (hasBody.kind_ne rfl)
  rw [hasBody.parts] at functions inFactory edits₁
  obtain ⟨second, apart', statements, edits₂⟩ := searchAll_last functions inFactory nofun nofun
  refine ⟨first ++ second, apart.append apart', statements, ?_⟩
  rw [foundIn, searchAll_edits done, List.flatMap_singleton, edits, edits₁, edits₂,
    List.append_assoc]
  rfl

end Job

/-- No call that is replaced is near enough above a statement that is nested in another one of the
body, so its `return` stays. -/
theorem not_returns_past {q : Position} {above rest : List Node} {functionBody factory k : Node}
    {lo : Nat} (path : q.path = above ++ functionBody :: factory :: rest) (some : above ≠ [])
    (bodyPlain : isAmd functionBody = false) (factoryPlain : isAmd factory = false)
    (outside : ∀ span ∈ q.converting, span.start < lo)
    (inside : ∀ n ∈ above, lo ≤ n.span.start) : ¬ Returns q k := by
  rintro ⟨_, _, -, near⟩
  rw [Position.inFactory, ancestorWithin?_isSome, List.any_eq_true, path] at near
  obtain ⟨n, member, replaced⟩ := near
  rw [Position.isReplaced, Bool.and_eq_true, List.contains_iff_mem] at replaced
  obtain ⟨amd, around⟩ := replaced
  have nearby : n ∈ above ∨ n = functionBody ∨ n = factory := by
    rcases above with _ | ⟨a, _ | ⟨b, _ | ⟨c, above⟩⟩⟩
    · exact absurd rfl some
    · simpa [factoryDepth] using member
    · simp [factoryDepth] at member
      rcases member with rfl | rfl | rfl <;> simp
    · simp [factoryDepth] at member
      rcases member with rfl | rfl | rfl <;> simp
  rcases nearby with member | rfl | rfl
  · have := outside _ around
    have := inside _ member
    omega
  · rw [bodyPlain] at amd
    cases amd
  · rw [factoryPlain] at amd
    cases amd

theorem Exposed.path_eq {root : Node} {policy : Policy} {start path : List Node} {top n : Node}
    {text : Text} (exposed : Exposed root policy start top path n)
    (nested : Nested text top.span.start top.children top.span.stop) :
    Nested text n.span.start n.children n.span.stop ∧ top.span.start ≤ n.span.start ∧
      ∃ above, path = above ++ start ∧ (above = [] → n = top) ∧
        ∀ m ∈ above, top.span.start ≤ m.span.start := by
  induction exposed with
  | top => exact ⟨nested, Nat.le_refl _, [], rfl, fun _ => rfl, nofun⟩
  | child _ _ member ih =>
      obtain ⟨inner, start, above, rfl, -, starts⟩ := ih
      have low := (inner.bounds _ member).1
      refine ⟨(inner.mem member).2, Nat.le_trans start low, _ :: above, rfl, nofun, ?_⟩
      exact List.forall_mem_cons.mpr ⟨start, starts⟩

/-- What is replaced in the body of a factory: a `return` with a value that stands in it itself,
and the outermost converted statements of the others. -/
def ReplacedIn (root : Node) (policy : Policy) (path body : List Node) (span : Span) : Prop :=
  (∃ argument, Node.mk .returnStatement span [argument] ∈ body) ∨
    ∃ m ∈ body, (∀ span argument, m ≠ .mk .returnStatement span [argument]) ∧
      ∃ path' n, Exposed root policy path m path' n ∧ Converts root policy path' n ∧ n.span = span

namespace Job

variable {job : Job} {p : Position} {text : Text}

theorem inBody_returns {span : Span} {call : Node} {plan : Plan} {factory functionBody : Node}
    (amd : isAmd call = true) (span' : Span) (argument : Node) :
    Returns (job.inBody p span call plan factory functionBody)
      (.mk .returnStatement span' [argument]) := by
  refine ⟨span', argument, rfl, ?_⟩
  rw [Position.inFactory, ancestorWithin?_isSome, List.any_eq_true]
  refine ⟨call, ?_, ?_⟩
  · simp [inBody, Position.below, factoryDepth]
  · simp [Position.isReplaced, amd, inBody, within, Position.below, Position.inside]

theorem returns_top {q₀ q : Position} {functionBody factory m k : Node} {rest : List Node}
    {lo : Nat}
    (path : q₀.path = functionBody :: factory :: rest) (bodyPlain : isAmd functionBody = false)
    (factoryPlain : isAmd factory = false) (outside : ∀ s ∈ q₀.converting, s.start < lo)
    (nested : Nested text m.span.start m.children m.span.stop) (low : lo ≤ m.span.start)
    (converting : q.converting = q₀.converting)
    (exposed : Exposed job.root job.policy q₀.path m q.path k) (returns : Returns q k) : k = m := by
  obtain ⟨-, -, above, same, top, starts⟩ := exposed.path_eq nested
  by_cases some : above = []
  · exact top some
  · have inside (n : Node) (member : n ∈ above) : lo ≤ n.span.start :=
      Nat.le_trans low (starts n member)
    rw [path] at same
    rw [← converting] at outside
    exact absurd returns (not_returns_past same some bodyPlain factoryPlain outside inside)

theorem visits_of_exposed {q₀ : Position} {m n : Node} {path : List Node}
    (exposed : Exposed job.root job.policy q₀.path m path n)
    (quiet : ∀ q k, q.converting = q₀.converting →
      Exposed job.root job.policy q₀.path m q.path k → ¬ Returns q k) :
    ∃ q, q.path = path ∧ q.converting = q₀.converting ∧ job.Visits q₀ m q n := by
  induction exposed with
  | top => exact ⟨q₀, rfl, rfl, .here⟩
  | child exposed still member ih =>
      obtain ⟨q, rfl, converting, visits⟩ := ih
      exact ⟨q.below _, rfl, converting,
        visits.child still (quiet q _ converting exposed) member⟩

theorem body_spans {span : Span} {call factory functionBody : Node} {plan : Plan}
    {body : List Node} {lo hi : Nat} (amd : isAmd call = true)
    (bodyPlain : isAmd functionBody = false) (factoryPlain : isAmd factory = false)
    (nested : Nested text lo body hi)
    (outside : ∀ s ∈ (job.inBody p span call plan factory functionBody).converting, s.start < lo)
    (done : (job.searchAll (job.inBody p span call plan factory functionBody) body).failure = none)
    (s : Span) :
    s ∈ (job.searchAll (job.inBody p span call plan factory functionBody) body).edits.map
        Edit.span ↔
      ReplacedIn job.root job.policy (job.inBody p span call plan factory functionBody).path
        body s := by
  have returning (s : Span) (argument : Node) :
      Returns (job.inBody p span call plan factory functionBody)
        (.mk .returnStatement s [argument]) := inBody_returns amd s argument
  obtain ⟨rest, path⟩ : ∃ rest, (job.inBody p span call plan factory functionBody).path =
    functionBody :: factory :: rest := ⟨_, rfl⟩
  generalize job.inBody p span call plan factory functionBody = q₀ at *
  rw [searchAll_edits done, List.map_flatMap, List.mem_flatMap]
  rw [searchAll_failure] at done
  have quiet {m : Node} (member : m ∈ body) {q : Position} {k : Node}
      (converting : q.converting = q₀.converting)
      (exposed : Exposed job.root job.policy q₀.path m q.path k) (returns : Returns q k) :
      k = m :=
    returns_top path bodyPlain factoryPlain outside (nested.mem member).2
      (nested.bounds m member).1 converting exposed returns
  constructor
  · rintro ⟨m, member, found⟩
    obtain ⟨q, k, visits, converts | returns, same⟩ := (search_spans (done m member) s).mp found
    · refine .inr ⟨m, member, ?_, q.path, k, visits.exposed, converts, same⟩
      rintro span argument rfl
      cases visits with
      | here => exact absurd converts (not_converts_of_kind nofun)
      | down _ still _ _ => exact still (returning span argument)
    · obtain rfl := quiet member visits.converting_eq visits.exposed returns
      obtain ⟨span, argument, rfl, -⟩ := returns
      cases same
      exact .inl ⟨argument, member⟩
  · rintro (⟨argument, member⟩ | ⟨m, member, other, path', n, exposed, converts, same⟩)
    · refine ⟨_, member, (search_spans (done _ member) s).mpr ?_⟩
      exact ⟨q₀, _, .here, .inr (returning s argument), rfl⟩
    · refine ⟨m, member, (search_spans (done m member) s).mpr ?_⟩
      have visits := visits_of_exposed exposed fun q k converting exposed returns => by
        obtain rfl := quiet member converting exposed returns
        obtain ⟨span, argument, rfl, -⟩ := returns
        exact other span argument rfl
      obtain ⟨q, rfl, -, visits⟩ := visits
      exact ⟨q, n, visits, .inl converts, same⟩

end Job

end AmdUnwrap
