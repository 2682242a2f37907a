import AmdUnwrap.Proofs.Coverage

/-!
The arguments of a converted call. The first is its list and the last its factory; what stands
between the two goes away with the call.
-/

namespace AmdUnwrap
open Amd

theorem decision_arguments {root call : Node} {policy : Policy} {notes : List Event} {plan : Plan}
    (decided : decision root policy call = .convert notes plan) :
    ∃ factory, factoryBody? factory = some plan.body ∧
      ((arguments call = [factory] ∧ plan.dependencies = []) ∨
        ∃ operand between elements, arguments call = operand :: (between ++ [factory]) ∧
          listElements root operand = .ok elements ∧
          plan.dependencies = paired elements (parameterPatterns factory)) := by
  obtain ⟨body, -⟩ := decision_convert decided
  obtain ⟨factory, last, found⟩ := Option.bind_eq_some_iff.mp body
  refine ⟨factory, found, ?_⟩
  rcases decision_lists decided with ⟨short, empty⟩ |
    ⟨operand, others, factory', elements, split, ending, listed, paired⟩
  · left
    match same : arguments call with
    | [] =>
        rw [same] at last
        cases last
    | [alone] =>
        rw [same] at last
        cases last
        exact ⟨rfl, empty⟩
    | operand :: other :: more =>
        rw [same, List.length_cons, List.length_cons] at short
        omega
  · right
    obtain ⟨between, rfl⟩ := List.getLast?_eq_some_iff.mp ending
    rw [split, List.getLast?_cons, ending] at last
    cases last
    exact ⟨operand, between, elements, split, listed, paired⟩

variable {root target operand factory m n : Node} {between : List Node} {policy : Policy}
  {callSpan : Span}

theorem dependencies_between :
    dependencies root (.mk .call callSpan (target :: operand :: (between ++ [factory]))) =
      dependencies root (.mk .call callSpan [target, operand, factory]) := by
  cases between with
  | nil => rfl
  | cons other more =>
      have last : (other :: (more ++ [factory])).getLast (by simp) = factory :=
        List.getLast_concat (l := other :: more)
      simp only [dependencies, arguments, List.cons_append, last, List.getLast_singleton]

theorem moduleBody_between :
    moduleBody? (.mk .call callSpan (target :: operand :: (between ++ [factory]))) =
      moduleBody? (.mk .call callSpan [target, operand, factory]) := by
  have last : (operand :: (between ++ [factory])).getLast? = some factory :=
    List.getLast?_concat (l := operand :: between)
  simp only [moduleBody?, arguments, last, List.getLast?_cons_cons, List.getLast?_singleton]

theorem decision_between :
    decision root policy (.mk .call callSpan (target :: operand :: (between ++ [factory]))) =
      decision root policy (.mk .call callSpan [target, operand, factory]) := by
  simp only [decision, dependencies_between, decideBody, moduleBody_between, Node.span]

theorem isAmd_between :
    isAmd (.mk .call callSpan (target :: operand :: (between ++ [factory]))) =
      isAmd (.mk .call callSpan [target, operand, factory]) := by
  have several : isLoneString (operand :: (between ++ [factory])) = false := by
    cases between <;> simp [isLoneString]
  have pair : isLoneString [operand, factory] = false := by simp [isLoneString]
  obtain ⟨kind, span, children⟩ := target
  cases kind <;> simp only [isAmd, several, pair]

theorem Converts.with_between {path : List Node} {span : Span}
    (converts : Converts root policy path
      (.mk .expressionStatement span [.mk .call callSpan [target, operand, factory]])) :
    Converts root policy path (.mk .expressionStatement span
      [.mk .call callSpan (target :: operand :: (between ++ [factory]))]) := by
  obtain ⟨_, _, notes, plan, same, amd, among, decided⟩ := converts
  cases same
  exact ⟨span, _, notes, plan, rfl, isAmd_between.trans amd, among, decision_between.trans decided⟩

namespace Job

variable {job : Job} {mode : Mode} {p : Position} {span : Span} {call : Node} {plan : Plan}
  {path : List Node} {before after : Text}

theorem exposed_comes (exposed : Exposed job.root job.policy [] job.root path n)
    (parsed : readProgram mode job.source.text = .ok job.root)
    (filled : n.span.start < n.span.stop) :
    ∃ q before after, q.path = path ∧ q.converting = [] ∧
      job.Comes (.searched q) n before after := by
  induction exposed with
  | top => exact ⟨.top, [], [], rfl, rfl, .top⟩
  | @child path n m upper still member ih =>
      obtain ⟨-, nested⟩ := upper.reaches.placed parsed
      obtain ⟨low, -, high⟩ := nested.bounds m member
      obtain ⟨q, before, after, rfl, outside, comes⟩ := ih (by omega)
      have stays : job.Stays (.searched q) n := ⟨still, not_returns outside n⟩
      exact ⟨q.below n, _, _, rfl, outside, comes.child stays member filled⟩

/-- Nothing of an argument between the list and the factory comes into the output. -/
theorem Comes.leaves_out_between
    (comes : job.Comes (.searched p) (.mk .expressionStatement span [call]) before after)
    (unwraps : job.Unwraps p call plan)
    (parsed : readProgram mode job.source.text = .ok job.root)
    (split : arguments call = operand :: (between ++ [factory])) (member : m ∈ between)
    (reaches : Node.Reaches m path n) (filled : n.span.start < n.span.stop) : job.LeftOut n := by
  have formed := comes.searches.reaches.wellFormed (readProgram_wellFormed parsed)
  have atCall := List.mem_singleton_self call
  obtain ⟨-, nested⟩ := (comes.placed parsed).2.mem atCall
  obtain ⟨target, children⟩ := children_of_isAmd unwraps.amd
  have last : (arguments call).getLast? = some factory := by
    rw [split]
    exact List.getLast?_concat (l := operand :: between)
  have inCall : m ∈ call.children := by
    rw [children, split]
    simp [member]
  -- The argument stops before the factory starts.
  have apart : n.span.stop ≤ factory.span.start := by
    have parts := nested
    rw [children, split, ← List.cons_append, ← List.cons_append] at parts
    obtain ⟨mid, front, back⟩ := parts.split
    have stop := (front.bounds m (by simp [member])).2.2
    have start := (back.bounds factory (List.mem_singleton_self factory)).1
    have inside := Span.within_iff.mp (reaches.within (nested.mem inCall).2).2
    omega
  have outside (part : Span) (inFactory : part.within factory.span = true) :
      n.span.within part = false := by
    rw [Span.within_iff] at inFactory
    rw [Bool.eq_false_iff, Ne, Span.within_iff]
    omega
  refine ⟨p, span, call, plan, path ++ [call], before, after, comes, unwraps,
    (Node.Reaches.top.child inCall).trans reaches, ?_, ?_⟩
  · intro e ends
    have h : job.Ends call factory plan.body e :=
      ⟨unwraps.amd, formed.child atCall, nested, last, unwraps.moduleBody, ends⟩
    exact outside _ h.within
  · intro part received
    obtain ⟨notes, decided⟩ := unwraps.decided
    rcases decision_lists decided with ⟨-, none⟩ | ⟨operand', others, factory', elements, split',
      ending, -, listed⟩
    · rw [none] at received
      cases received
    · have same : factory' = factory := by
        rw [split', List.getLast?_cons, ending] at last
        exact Option.some.inj last
      subst same
      rw [listed, paired] at received
      simp only [List.map_map, List.mem_map, List.mem_filter] at received
      obtain ⟨⟨element, index⟩, -, same⟩ := received
      obtain ⟨below, k, toK, rfl⟩ := reaches_parameter (List.mem_of_getElem? same)
      have inFactory := (nested.mem (mem_children_of_getLast? unwraps.amd last)).2
      exact outside _ (toK.within inFactory).2

end Job

/-- A statement that would be converted without the arguments between its list and its factory is
converted with them too, and they are left out of the output. -/
theorem convert_drops_between {options : Options} {text output : Text} {path : List Node}
    {span : Span} (converted : convert options text = .ok output)
    (parsed : readProgram options.mode text = .ok root)
    (exposed : Exposed root options.policy [] root path (.mk .expressionStatement span
      [.mk .call callSpan (target :: operand :: (between ++ [factory]))]))
    (converts : Converts root options.policy path
      (.mk .expressionStatement span [.mk .call callSpan [target, operand, factory]])) :
    let job : Job := ⟨root, .ofProgram text root, options.policy⟩
    (∃ edits, Splices (fun _ kept => kept) 0 edits text output ∧ span ∈ edits.map Edit.span) ∧
      ∀ m ∈ between, ∀ below n, Node.Reaches m below n → n.span.start < n.span.stop →
        job.LeftOut n := by
  intro job
  obtain ⟨_, parsed', done, splices⟩ := convert_splices converted
  cases parsed.symm.trans parsed'
  obtain ⟨-, spans⟩ := program_edits parsed done
  have long : Converts root options.policy path (.mk .expressionStatement span
      [.mk .call callSpan (target :: operand :: (between ++ [factory]))]) := converts.with_between
  refine ⟨⟨_, splices, (spans _).mpr ⟨path, _, exposed, long, rfl⟩⟩, ?_⟩
  intro m member below n reaches filled
  obtain ⟨_, call, notes, plan, same, amd, among, decided⟩ := id long
  cases same
  have wide : span.start < span.stop := by
    have nested := (exposed.reaches.placed parsed).2
    have inCall : m ∈ target :: operand :: (between ++ [factory]) := by simp [member]
    obtain ⟨-, inside⟩ := nested.mem (List.mem_singleton_self _)
    have outer : span.start ≤ callSpan.start ∧ callSpan.start ≤ callSpan.stop ∧
        callSpan.stop ≤ span.stop := nested.bounds _ (List.mem_singleton_self _)
    have inner : callSpan.start ≤ m.span.start ∧ m.span.start ≤ m.span.stop ∧
        m.span.stop ≤ callSpan.stop := inside.bounds m inCall
    have deep := Span.within_iff.mp (reaches.within (inside.mem inCall).2).2
    omega
  obtain ⟨q, before, after, rfl, -, comes⟩ := job.exposed_comes exposed parsed wide
  have unwraps : job.Unwraps q _ plan := ⟨amd, among, notes, decided⟩
  exact comes.leaves_out_between unwraps parsed rfl member reaches filled

/-- The callback of a call that names an error handler as well is gone. -/
theorem convert_drops_callback :
    let text := ("require(['a'], function (a) \x7b a(); \x7d, function (e) \x7b e(); \x7d);").toList
    let output := "var e = require('a');\ne();".toList
    convert {} text = .ok output ∧
      ((readProgram .global text).toOption.any fun root =>
        match root with
        | .mk .program _ [.mk .expressionStatement _ [call]] =>
          isAmd call && (arguments call).length == 3
        | _ => false) = true :=
  ⟨ok_of_toOption (by decide +kernel), by decide +kernel⟩

end AmdUnwrap
