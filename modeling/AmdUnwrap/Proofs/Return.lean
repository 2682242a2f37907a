import AmdUnwrap.Proofs.Coverage
import AmdUnwrap.Proofs.Seam

/-!
Which `return` statements give their value to a module: those that stand in the body of the
factory of a call that is replaced. Every other one keeps its text.
-/

namespace AmdUnwrap
open Amd

namespace Job

variable {job : Job} {mode : Mode} {w : Way} {p : Position} {n : Node} {before after : Text}

/-- The statement stands in the body of the factory of a call that is replaced in the output. -/
def GivesModule (job : Job) (w : Way) (n : Node) : Prop :=
  ∃ p q span call factory body before after, w = .searched p ∧
    p.path = body :: factory :: call :: .mk .expressionStatement span [call] :: q.path ∧
    n ∈ body.children ∧ body.kind = .functionBody ∧ factory.children.getLast? = some body ∧
    (arguments call).getLast? = some factory ∧
    job.Comes (.searched q) (.mk .expressionStatement span [call]) before after ∧
    Converts job.root job.policy q.path (.mk .expressionStatement span [call])

/-- The node keeps its text, but for lines that move and the outermost converted statements
in it. -/
structure Keeps (job : Job) (w : Way) (n : Node) : Prop where
  splices : Splices (job.source.shift w.dedent 0) n.span.start (job.editsIn w n)
    (job.source.slice n.span) (job.image w n)
  spans : ∀ span, span ∈ (job.editsIn w n).map Edit.span ↔
    ∃ p path k, w = .searched p ∧ Exposed job.root job.policy p.path n path k ∧
      Converts job.root job.policy path k ∧ k.span = span
  found : ∀ edit ∈ job.editsIn w n, ∃ q k, job.Searches q k ∧ (job.search q k).edits = [edit]

theorem Visits.not_converts {q : Position} {k m : Node} {above : List Node}
    (visits : job.Visits p n q k) (suffix : m :: above <:+ q.path) :
    m :: above <:+ p.path ∨ ¬ Converts job.root job.policy above m := by
  induction visits with
  | here => exact .inl suffix
  | down still _ _ _ ih =>
      rcases ih suffix with upper | other
      · rcases List.suffix_cons_iff.mp upper with same | upper
        · cases same
          exact .inr still
        · exact .inl upper
      · exact .inr other

namespace Comes

theorem statement {m : Node} {above : List Node} (comes : job.Comes (.searched p) n before after)
    (suffix : m :: above <:+ p.path) (converts : Converts job.root job.policy above m) :
    ∃ q before after, q.path = above ∧ job.Comes (.searched q) m before after := by
  generalize way : Way.searched p = w at comes
  induction comes generalizing p with
  | top =>
      cases way
      cases List.suffix_nil.mp suffix
  | @child w n _ _ _ _ stays _ _ ih =>
      cases w with
      | copied dedent => cases way
      | searched p =>
          cases way
          rcases List.suffix_cons_iff.mp suffix with same | upper
          · cases same
            exact absurd converts stays.1
          · exact ih upper rfl
  | returned _ _ _ _ => cases way
  | @inside p q span call _ _ _ _ before after _ _ comes unwraps _ visits _ _ _ _ ih =>
      cases way
      rcases visits.not_converts suffix with upper | other
      · rcases List.suffix_cons_iff.mp upper with same | upper
        · cases same
          exact absurd converts
            (not_converts_of_kind (by rw [kind_of_isAmd unwraps.amd]; nofun))
        · rcases List.suffix_cons_iff.mp upper with same | upper
          · cases same
            exact ⟨p, before, after, rfl, comes⟩
          · exact ih upper rfl
      · exact absurd converts other
  | parameter _ _ _ _ _ _ _ => cases way

theorem around (comes : job.Comes (.searched p) n before after) :
    ∀ span ∈ p.converting, ∃ factory call statement above,
      factory :: call :: .mk .expressionStatement statement [call] :: above <:+ n :: p.path ∧
      (arguments call).getLast? = some factory ∧ isAmd call = true ∧
      Converts job.root job.policy above (.mk .expressionStatement statement [call]) ∧
      call.span = span := by
  generalize way : Way.searched p = w at comes
  induction comes generalizing p with
  | top =>
      cases way
      nofun
  | @child w n _ _ _ _ _ _ _ ih =>
      cases w with
      | copied dedent => cases way
      | searched p =>
          cases way
          intro span converting
          obtain ⟨factory, call, statement, above, suffix, rest⟩ := ih rfl span converting
          exact ⟨factory, call, statement, above, suffix.trans (List.suffix_cons _ _), rest⟩
  | returned _ _ _ _ => cases way
  | @inside p q span call factory k _ _ _ _ _ _ _ unwraps last visits _ _ _ _ ih =>
      cases way
      obtain ⟨above, reaches, path⟩ := visits.reaches
      have below : factory :: call :: .mk .expressionStatement span [call] :: p.path <:+
          k :: q.path := by
        rw [path, ← List.cons_append]
        exact List.suffix_append_self_iff.mpr reaches.root_suffix
      rw [visits.converting_eq]
      intro s converting
      rcases List.mem_cons.mp converting with rfl | converting
      · exact ⟨factory, call, span, p.path, below, last, unwraps.amd, unwraps.converts, rfl⟩
      · obtain ⟨factory', call', statement, above', suffix, rest⟩ := ih rfl s converting
        refine ⟨factory', call', statement, above', ?_, rest⟩
        exact suffix.trans (((List.suffix_cons _ _).trans (List.suffix_cons _ _)).trans below)
  | parameter _ _ _ _ _ _ _ => cases way

end Comes

theorem Searches.up {m : Node} {above : List Node} (searches : job.Searches p m)
    (path : p.path = n :: above) (plain : isAmd m = false) :
    ∃ q, p = q.below n ∧ q.path = above ∧ job.Searches q n := by
  cases searches with
  | top => cases path
  | child upper _ _ _ =>
      cases path
      exact ⟨_, rfl, rfl, upper⟩
  | inside _ amd _ _ =>
      rw [amd] at plain
      cases plain

theorem Searches.converting {span : Span} {call : Node} {above : List Node}
    (searches : job.Searches p call)
    (path : p.path = .mk .expressionStatement span [call] :: above)
    (converts : Converts job.root job.policy above (.mk .expressionStatement span [call])) :
    call.span ∈ p.converting := by
  cases searches with
  | top => cases path
  | child _ still _ _ =>
      cases path
      exact absurd converts still
  | inside _ _ _ _ => exact List.mem_cons_self

theorem GivesModule.returns {span : Span} {argument : Node}
    (gives : job.GivesModule (.searched p) (.mk .returnStatement span [argument]))
    (searches : job.Searches p (.mk .returnStatement span [argument]))
    (parsed : readProgram mode job.source.text = .ok job.root) :
    Returns p (.mk .returnStatement span [argument]) := by
  obtain ⟨_, q, statement, call, factory, body, _, _, way, path, -, isBody, -, -, -, converts⟩ :=
    gives
  cases way
  refine ⟨span, argument, rfl, ?_⟩
  obtain ⟨p₁, rfl, path₁, atBody⟩ := searches.up path rfl
  have plain (m : Node) (other : m.kind ≠ .call) : isAmd m = false := by
    cases amd : isAmd m with
    | false => rfl
    | true => exact absurd (kind_of_isAmd amd) other
  obtain ⟨p₂, rfl, path₂, atFactory⟩ := atBody.up path₁ (plain body (by rw [isBody]; nofun))
  have isFunction := atBody.reaches.admits (readProgram_wellFormed parsed)
  rw [Node.role, isBody] at isFunction
  obtain ⟨p₃, rfl, path₃, atCall⟩ := atFactory.up path₂ (plain factory (by
    intro isCall
    rw [isCall] at isFunction
    cases isFunction))
  have amd : isAmd call = true := by
    obtain ⟨_, _, _, _, same, amd, -⟩ := converts
    cases same
    exact amd
  have converting := atCall.converting path₃ converts
  rw [Position.inFactory, ancestorWithin?_isSome, List.any_eq_true]
  refine ⟨call, by simp [Position.below, factoryDepth], ?_⟩
  rw [Position.isReplaced, Bool.and_eq_true, List.contains_iff_mem]
  exact ⟨amd, converting⟩

/-- A call that is being replaced, near above a `return`, is the nearest call of that kind, and
the function in between is its factory. -/
theorem Comes.near_factory {k : Node} {q : Position}
    (comes : job.Comes (.searched p) n before after) (suffix : n :: p.path <:+ k :: q.path)
    (converting : q.converting = p.converting)
    (searches : job.Searches q k) (returns : Returns q k)
    (parsed : readProgram mode job.source.text = .ok job.root) :
    ∃ body factory call statement above,
      q.path = body :: factory :: call :: .mk .expressionStatement statement [call] :: above ∧
      body.kind = .functionBody ∧ factory.kind.isFunction = true ∧
      factory :: call :: .mk .expressionStatement statement [call] :: above <:+ n :: p.path ∧
      (arguments call).getLast? = some factory ∧
      Converts job.root job.policy above (.mk .expressionStatement statement [call]) := by
  obtain ⟨span, argument, rfl, near⟩ := returns
  rw [Position.inFactory, ancestorWithin?_isSome, List.any_eq_true] at near
  obtain ⟨call, near, replaced⟩ := near
  rw [Position.isReplaced, Bool.and_eq_true, List.contains_iff_mem, converting] at replaced
  obtain ⟨amd, around⟩ := replaced
  have isCall := kind_of_isAmd amd
  obtain ⟨body, function, rest, path, isBody, isFunction⟩ :=
    searches.reaches.near_call (readProgram_wellFormed parsed) rfl isCall near
  obtain ⟨factory, call', statement, above, inner, last, amd', converts, same⟩ :=
    comes.around _ around
  have outer := inner.trans suffix
  have upper : call :: rest <:+ .mk .returnStatement span [argument] :: q.path := by
    rw [path]
    exact ((List.suffix_cons _ _).trans (List.suffix_cons _ _)).trans (List.suffix_cons _ _)
  have eq := searches.reaches.call_eq parsed upper ((List.suffix_cons _ _).trans outer) isCall
    (kind_of_isAmd amd') same.symm
  cases eq
  have function_suffix : function :: call :: .mk .expressionStatement statement [call] :: above <:+
      .mk .returnStatement span [argument] :: q.path := by
    rw [path]
    exact (List.suffix_cons _ _).trans (List.suffix_cons _ _)
  have eq := (List.suffix_of_suffix_length_le outer function_suffix (by simp)).eq_of_length
    (by simp)
  obtain ⟨rfl, -⟩ := List.cons.inj eq
  exact ⟨body, factory, call, statement, above, path, isBody, isFunction, inner, last, converts⟩

theorem Comes.gives {span : Span} {argument : Node}
    (comes : job.Comes (.searched p) (.mk .returnStatement span [argument]) before after)
    (returns : Returns p (.mk .returnStatement span [argument]))
    (parsed : readProgram mode job.source.text = .ok job.root) :
    job.GivesModule (.searched p) (.mk .returnStatement span [argument]) := by
  obtain ⟨body, factory, call, statement, above, path, isBody, isFunction, -, last, converts⟩ :=
    comes.near_factory List.suffix_rfl rfl comes.searches returns parsed
  have reaches := comes.searches.reaches
  rw [path] at reaches
  obtain ⟨inFactory, member⟩ := reaches.parent
  obtain ⟨atFactory, inCall⟩ := inFactory.parent
  have ends := (atFactory.wellFormed (readProgram_wellFormed parsed)).endsInBody
  obtain ⟨heads, parts⟩ := ends.last isFunction inCall isBody
  have suffix : .mk .expressionStatement statement [call] :: above <:+ p.path := by
    rw [path]
    exact ((List.suffix_cons _ _).trans (List.suffix_cons _ _)).trans (List.suffix_cons _ _)
  obtain ⟨q, before', after', rfl, around⟩ := comes.statement suffix converts
  exact ⟨p, q, statement, call, factory, body, before', after', rfl, path, member, isBody,
    by rw [parts, List.getLast?_concat], last, around, converts⟩

theorem Comes.not_returns {q : Position} {k : Node}
    (comes : job.Comes (.searched p) n before after) (isReturn : n.kind = .returnStatement)
    (stays : ¬ Returns p n) (visits : job.Visits p n q k)
    (parsed : readProgram mode job.source.text = .ok job.root) : ¬ Returns q k := by
  intro returns
  have converting := visits.converting_eq
  cases visits with
  | here => exact stays returns
  | @down _ _ _ m _ still quiet member visits =>
      have searches := visits.searches (comes.searches.child still quiet member)
      obtain ⟨_, -, above⟩ := visits.reaches
      have upper : n :: p.path <:+ q.path := by
        rw [above]
        exact List.suffix_append _ _
      obtain ⟨body, factory, call, statement, above, path, isBody, isFunction, inner, -⟩ :=
        comes.near_factory (upper.trans (List.suffix_cons k _)) converting searches returns parsed
      rw [path] at upper
      rcases List.suffix_cons_iff.mp upper with same | upper
      · obtain ⟨rfl, -⟩ := List.cons.inj same
        rw [isBody] at isReturn
        cases isReturn
      rcases List.suffix_cons_iff.mp upper with same | upper
      · obtain ⟨rfl, -⟩ := List.cons.inj same
        rw [isReturn] at isFunction
        cases isFunction
      · have shorter := (inner.trans upper).length_le
        simp only [List.length_cons] at shorter
        omega

theorem search_quiet (done : (job.search p n).failure = none)
    (quiet : ∀ q k, job.Visits p n q k → ¬ Returns q k) (span : Span) :
    span ∈ (job.search p n).edits.map Edit.span ↔
      ∃ path k, Exposed job.root job.policy p.path n path k ∧
        Converts job.root job.policy path k ∧ k.span = span := by
  rw [search_spans done]
  constructor
  · rintro ⟨q, k, visits, converts | returns, same⟩
    · exact ⟨q.path, k, visits.exposed, converts, same⟩
    · exact absurd returns (quiet q k visits)
  · rintro ⟨path, k, exposed, converts, same⟩
    have visits : ∃ q, q.path = path ∧ job.Visits p n q k := by
      clear converts same
      induction exposed with
      | top => exact ⟨p, rfl, .here⟩
      | child _ still member ih =>
          obtain ⟨q, rfl, visits⟩ := ih
          exact ⟨q.below _, rfl, visits.child still (quiet _ _ visits) member⟩
    obtain ⟨q, rfl, visits⟩ := visits
    exact ⟨q, k, visits, .inl converts, same⟩

namespace Comes

theorem stands (comes : job.Comes w n before after) (other : n.kind ≠ .program)
    (parsed : readProgram mode job.source.text = .ok job.root) :
    n.Stands job.source.text ∧ n.span.start < n.span.stop := by
  rcases (comes.placed parsed).1 with rfl | stands
  · obtain ⟨body, same, -⟩ := readProgram_nested parsed
    rw [same] at other
    exact absurd rfl other
  · exact stands

theorem splices (comes : job.Comes w n before after) (other : n.kind ≠ .program)
    (parsed : readProgram mode job.source.text = .ok job.root)
    (done : (job.search .top job.root).failure = none) :
    Splices (job.source.shift w.dedent 0) n.span.start (job.editsIn w n)
      (job.source.slice n.span) (job.image w n) := by
  obtain ⟨stands, filled⟩ := comes.stands other parsed
  have apart : Apart job.source.text n.span.start (job.editsIn w n) n.span.stop := by
    cases w with
    | searched p => exact search_apart stands (comes.placed parsed).2 (comes.searches.done done)
    | copied dedent => exact .nil (Nat.le_of_lt filled)
  obtain ⟨front, part, rest, whole, span, -⟩ := stands.solid filled
  have slice : job.source.slice n.span = part := by
    rw [span]
    exact Text.slice_eq whole rfl rfl
  rw [slice, Job.image, Source.render, apart.filter_within (Nat.le_refl _) (Nat.le_refl _)]
  exact job.source.splice_splices w.dedent apart whole (by rw [span]) (by rw [span])

theorem keyword {argument : Node} (comes : job.Comes w n before after)
    (isReturn : n.kind = .returnStatement) (stays : job.Stays w n) (member : argument ∈ n.children)
    (parsed : readProgram mode job.source.text = .ok job.root)
    (done : (job.search .top job.root).failure = none) : returnKeyword <+: job.image w n := by
  have other : n.kind ≠ .program := by
    rw [isReturn]
    nofun
  obtain ⟨-, nested⟩ := comes.placed parsed
  obtain ⟨stands, filled⟩ := comes.stands other parsed
  obtain ⟨front, rest, whole, start, past⟩ := stands.returns isReturn
  obtain ⟨-, wide, stop⟩ := nested.bounds argument member
  have short := Nat.le_trans (past argument member) (Nat.le_trans wide stop)
  obtain ⟨front', part, rest', whole', span, -⟩ := stands.solid filled
  have slice : job.source.slice n.span = part := by
    rw [span]
    exact Text.slice_eq whole' rfl rfl
  have place : front'.byteLength = front.byteLength := by
    rw [← start, span]
  have high : n.span.stop = front'.byteLength + part.byteLength := by
    rw [span]
  obtain ⟨k, rfl, same⟩ := Text.part_rest (whole.symm.trans whole') (Nat.le_of_eq place.symm)
  have none : k = [] := by
    apply Text.byteLength_eq_zero.mp
    rw [Text.byteLength_append] at place
    omega
  subst none
  rw [List.nil_append] at same
  obtain ⟨tail, rfl, -⟩ := Text.part_rest same (by omega)
  have later : ∀ edit ∈ job.editsIn w n,
      n.span.start + returnKeyword.byteLength ≤ edit.span.start := by
    cases w with
    | copied dedent => nofun
    | searched p =>
        obtain ⟨inside, edits⟩ := search_still (comes.searches.done done) stays.1 stays.2
        have apart := edits_apart (nested.tighten short fun m member =>
          ⟨past m member, (nested.bounds m member).2.2⟩) inside
        intro edit found
        rw [editsIn, edits] at found
        exact (apart.bounds edit found).1
  have splices := comes.splices other parsed done
  rw [slice] at splices
  have kept : Splices (job.source.shift w.dedent 0) n.span.start [] returnKeyword
      (job.source.shift w.dedent 0 n.span.start returnKeyword) := .rest
  rw [job.source.shift_line w.dedent _ (by decide)] at kept
  exact kept.opening splices later

end Comes

theorem Comes.keeps (comes : job.Comes w n before after) (isReturn : n.kind = .returnStatement)
    (stays : ∀ p, w = .searched p → ¬ Returns p n)
    (parsed : readProgram mode job.source.text = .ok job.root)
    (done : (job.search .top job.root).failure = none) : job.Keeps w n := by
  have other : n.kind ≠ .program := by
    rw [isReturn]
    nofun
  refine ⟨comes.splices other parsed done, ?_, ?_⟩
  · intro span
    cases w with
    | copied dedent =>
        constructor
        · intro member
          cases member
        · rintro ⟨_, _, _, way, -⟩
          cases way
    | searched p =>
        have quiet (q : Position) (k : Node) (visits : job.Visits p n q k) : ¬ Returns q k :=
          comes.not_returns isReturn (stays p rfl) visits parsed
        rw [editsIn, search_quiet (comes.searches.done done) quiet span]
        constructor
        · rintro ⟨path, k, found⟩
          exact ⟨p, path, k, rfl, found⟩
        · rintro ⟨_, path, k, way, found⟩
          cases way
          exact ⟨path, k, found⟩
  · cases w with
    | copied dedent =>
        intro edit member
        cases member
    | searched p => exact comes.searches.found (comes.searches.done done)

theorem image_of_returns {span : Span} {argument : Node}
    (returns : Returns p (.mk .returnStatement span [argument])) :
    job.image (.searched p) (.mk .returnStatement span [argument]) =
      exportStatement (job.source.copy p.dedent argument.span) := by
  obtain ⟨_, _, same, inside⟩ := returns
  rw [Job.image, editsIn, search_returned inside]
  exact Source.render_alone ..

theorem not_keyword_export (value : Text) : ¬ returnKeyword <+: exportStatement value := by
  rintro ⟨tail, same⟩
  have lead : exportLead.head? = some 'm' := by decide
  have heads := congrArg List.head? same
  rw [exportStatement_eq, List.head?_append, List.head?_append, lead] at heads
  cases heads

end Job

/-- Every `return` of a program comes into the output or is left out with a call that is replaced.
It becomes an assignment to the module where it stands in the body of the factory of a converted
statement, and there only; every other one keeps its text. -/
theorem convert_exports_own_returns {options : Options} {text output : Text}
    {root returning : Node} {path : List Node} (converted : convert options text = .ok output)
    (parsed : readProgram options.mode text = .ok root)
    (reaches : Node.Reaches root path returning) (isReturn : returning.kind = .returnStatement) :
    let job : Job := ⟨root, .ofProgram text root, options.policy⟩
    (job.Emitted returning ∨ job.LeftOut returning) ∧
      ∀ w before after, job.Comes w returning before after →
        output = before ++ (job.image w returning ++ after) ∧
        (∀ argument, returning.children = [argument] →
          (job.image w returning = exportStatement (job.source.copy w.dedent argument.span) ↔
            job.GivesModule w returning)) ∧
        (returning.children = [] ∨ ¬ job.GivesModule w returning → job.Keeps w returning) := by
  intro job
  obtain ⟨_, parsed', done, rfl⟩ := convert_ok converted
  cases parsed.symm.trans parsed'
  have stands := (reaches.placed parsed).1 (by rw [isReturn]; rintro ⟨⟩)
  have filled := stands.filled (by rw [isReturn]; rfl)
  have whole : job.Comes (.searched .top) root [] [] := .top
  refine ⟨whole.covers parsed reaches filled, fun w before after comes => ?_⟩
  have gives (p : Position) (way : w = .searched p) (returns : Returns p returning) :
      job.GivesModule w returning := by
    subst way
    obtain ⟨_, _, rfl, -⟩ := id returns
    exact comes.gives returns parsed
  refine ⟨?_, fun argument alone => ⟨fun same => ?_, fun gives => ?_⟩, fun other => ?_⟩
  · obtain ⟨body, same, -⟩ := readProgram_nested parsed
    have extent : job.root.span = ⟨0, text.byteLength⟩ := congrArg Node.span same
    rw [← comes.output_eq parsed done, Job.image, extent]
    rfl
  · by_contra stays
    have still : job.Stays w returning := by
      cases w with
      | copied dedent => trivial
      | searched p =>
          exact ⟨not_converts_of_kind (by rw [isReturn]; rintro ⟨⟩), fun returns =>
            stays (gives p rfl returns)⟩
    have member : argument ∈ returning.children := by
      rw [alone]
      exact List.mem_singleton_self argument
    have starts := comes.keyword isReturn still member parsed done
    rw [same] at starts
    exact Job.not_keyword_export _ starts
  · obtain ⟨kind, span, children⟩ := returning
    cases isReturn
    cases alone
    obtain ⟨p, _, _, _, _, _, _, _, rfl, -⟩ := id gives
    exact Job.image_of_returns (gives.returns comes.searches parsed)
  · refine comes.keeps isReturn (fun p way returns => ?_) parsed done
    rcases other with none | stays
    · obtain ⟨_, _, rfl, -⟩ := returns
      cases none
    · exact stays (gives p way returns)

theorem Job.Comes.in_body {job : Job} {mode : Mode} {p : Position} {span place bodySpan : Span}
    {call factory argument : Node} {body : List Node} {plan : Plan} {e : Ending}
    {before after : Text}
    (comes : job.Comes (.searched p) (.mk .expressionStatement span [call]) before after)
    (unwraps : job.Unwraps p call plan)
    (last : (arguments call).getLast? = some factory) (braced : factory.kind.isBraced = true)
    (atBody : .mk .functionBody bodySpan body ∈ factory.children)
    (member : Node.mk .returnStatement place [argument] ∈ body) (filled : place.start < place.stop)
    (ends : job.source.ending plan.body = some e) (inside : place.within e.part = true)
    (parsed : readProgram mode job.source.text = .ok job.root) :
    ∃ q before after, job.Comes (.searched q) (.mk .returnStatement place [argument]) before after ∧
      job.GivesModule (.searched q) (.mk .returnStatement place [argument]) := by
  have through : job.Visits ((job.within p span call plan).below call) factory
      (job.inBody p span call plan factory (.mk .functionBody bodySpan body))
      (.mk .returnStatement place [argument]) :=
    .down (not_converts_of_kind fun same => by rw [same] at braced; cases braced)
      (not_returns_of_kind fun same => by rw [same] at braced; cases braced) atBody
      (.down (not_converts_of_kind nofun) (not_returns_of_kind nofun) member .here)
  obtain ⟨texts, all⟩ := job.source.replacement_ending (job.foundIn p span call plan).edits span
    p.dedent ends
  have emitted := Job.Comes.inside comes unwraps last through filled ends inside all
  exact ⟨_, _, _, emitted, emitted.gives (Job.inBody_returns unwraps.amd place argument) parsed⟩

theorem return_module {text : Text}
    (same : text = "define(function () \x7b return a; \x7d);".toList) :
    ((readProgram .global text).toOption.any fun root =>
      match root with
      | .mk .program _ [.mk .expressionStatement span [.mk .call callSpan [name,
          .mk (.function false false) functionSpan [parameters, .mk .functionBody bodySpan
            [.mk .returnStatement place [argument]]]]]] =>
        let call : Node := .mk .call callSpan [name, .mk (.function false false) functionSpan
          [parameters, .mk .functionBody bodySpan [.mk .returnStatement place [argument]]]]
        isAmd call && decide (span.start < span.stop) && decide (place.start < place.stop) &&
        match decision root .abort call with
        | .convert _ ⟨_, body⟩ => ((Source.ofProgram text root).ending body).any
            fun ending => place.within ending.part
        | _ => false
      | _ => false) = true := by
  subst same
  decide +kernel

theorem convert_exports_one_return :
    let text := "define(function () \x7b return a; \x7d);".toList
    convert {} text = .ok "module.exports = a;".toList ∧
      ∃ (job : Job) (w : Way) (returning argument : Node) (before after : Text),
        readProgram .global text = .ok job.root ∧ job.Comes w returning before after ∧
        job.GivesModule w returning ∧ returning.children = [argument] ∧
        job.image w returning = exportStatement (job.source.copy w.dedent argument.span) := by
  intro text
  have converted : convert {} text = .ok "module.exports = a;".toList :=
    ok_of_toOption (by decide +kernel)
  refine ⟨converted, ?_⟩
  obtain ⟨root, parsed, -⟩ := convert_ok converted
  have shape := return_module (rfl : text = _)
  have parsed' : readProgram .global text = .ok root := parsed
  rw [parsed'] at shape
  simp only [Except.toOption, Option.any_some] at shape
  split at shape
  next programSpan span callSpan name functionSpan parameters bodySpan place argument =>
    simp only [Bool.and_eq_true, decide_eq_true_eq] at shape
    obtain ⟨⟨⟨amd, some⟩, filled⟩, shape⟩ := shape
    split at shape
    next notes dependencies body decided =>
      obtain ⟨e, ends, inside⟩ := (Option.any_eq_true ..).mp shape
      generalize callEq : Node.mk .call callSpan _ = call at *
      generalize top : Node.mk .program programSpan [.mk .expressionStatement span [call]] = root
        at *
      let job : Job := ⟨root, .ofProgram text root, .abort⟩
      have still : job.Stays (.searched .top) root :=
        ⟨not_converts_of_kind (by rw [← top]; rintro ⟨⟩), not_returns rfl root⟩
      have child : Node.mk .expressionStatement span [call] ∈ root.children := by
        rw [← top]
        exact List.mem_singleton_self _
      have comes := Job.Comes.top.child still child some
      have among : (Position.top.below root).amongStatements = true := by
        rw [← top]
        rfl
      have unwraps : job.Unwraps (Position.top.below root) call ⟨dependencies, body⟩ :=
        ⟨amd, among, notes, decided⟩
      subst callEq
      obtain ⟨q, before, after, emitted, gives⟩ := comes.in_body unwraps rfl rfl
        (List.mem_cons_of_mem _ (List.mem_singleton_self _)) (List.mem_singleton_self _) filled ends
        inside parsed
      obtain ⟨-, all⟩ :=
        convert_exports_own_returns converted parsed emitted.searches.reaches rfl
      obtain ⟨-, exports, -⟩ := all _ before after emitted
      exact ⟨job, _, _, argument, before, after, parsed, emitted, gives, rfl,
        (exports argument rfl).mpr gives⟩
    · cases shape
  · cases shape

end AmdUnwrap
