import AmdUnwrap.Proofs.Agreement

/-!
Which calls are left for lists that are not resolved. They are noted in the order of the text, so
that the strict policy fails for the one with the smallest offset.
-/

namespace AmdUnwrap
open Amd

namespace Job

variable {job : Job}

/-- A call that is left since its list is not resolved. -/
def Leaves (job : Job) (p : Position) (n : Node) (list : Unresolved) : Prop :=
  ∃ span call, n = .mk .expressionStatement span [call] ∧ isAmd call = true ∧
    p.amongStatements = true ∧
    dependencies job.root call = .error (.unresolved list.name list.offset)

def LeavesUnresolved (job : Job) (list : Unresolved) : Prop :=
  ∃ p n, job.Searches p n ∧ job.Leaves p n list

/-- What the search does at a node, with the unresolved lists that it notes there and below, where
they leave their calls. -/
inductive Noted (job : Job) (p : Position) : Node → List Unresolved → Prop where
  | converted {span : Span} {call : Node} {notes : List Event} {plan : Plan} :
      isAmd call = true → p.amongStatements = true →
      decision job.root job.policy call = .convert notes plan →
      Noted job p (.mk .expressionStatement span [call]) (job.foundIn p span call plan).unresolved
  | returned {n : Node} : Returns p n → Noted job p n []
  | left {n : Node} {list : Unresolved} : ¬ Converts job.root job.policy p.path n →
      ¬ Returns p n → job.Leaves p n list →
      Noted job p n (list :: (job.searchAll (p.below n) n.children).unresolved)
  | passed {n : Node} : ¬ Converts job.root job.policy p.path n → ¬ Returns p n →
      (∀ list, ¬ job.Leaves p n list) →
      Noted job p n (job.searchAll (p.below n) n.children).unresolved

variable (lenient : job.policy = .skip)
include lenient

theorem decision_lenient (call : Node) :
    (∃ list : Unresolved, dependencies job.root call = .error (.unresolved list.name list.offset) ∧
      decision job.root job.policy call = .leave [.leftUnresolved list]) ∨
    ((∀ name offset, dependencies job.root call ≠ .error (.unresolved name offset)) ∧
      (decision job.root job.policy call).Quiet) := by
  rw [lenient]
  rcases decision_policies job.root call with ⟨list, found, -, skip⟩ | ⟨settled, -, silent⟩
  · exact .inl ⟨list, found, skip⟩
  · exact .inr ⟨settled, silent⟩

theorem Remarks.noted {p : Position} {n : Node} {notes : List Event}
    (remarks : job.Remarks p n notes) (quiet : ¬ Returns p n) :
    job.Noted p n ((job.searchAll (p.below n) n.children).noting notes).unresolved := by
  have still := remarks.not_converts
  rw [Findings.noting_unresolved]
  cases remarks with
  | @left span call notes amd among decided =>
      rcases decision_lenient lenient call with ⟨list, found, left⟩ | ⟨settled, silent⟩
      · cases decided.symm.trans left
        exact .left still quiet ⟨span, call, rfl, amd, among, found⟩
      · rw [decided] at silent
        have none : notes.filterMap Event.unresolved? = [] := silent
        rw [none]
        refine .passed still quiet ?_
        rintro list ⟨_, _, same, -, -, found⟩
        cases same
        exact settled _ _ found
  | outside amd apart =>
      refine .passed still quiet ?_
      rintro list ⟨_, _, -, -, among, -⟩
      exact apart among
  | plain other =>
      refine .passed still quiet ?_
      rintro list ⟨span, call, same, amd, -⟩
      exact other span call same amd

theorem search_noted (p : Position) (n : Node) :
    job.Noted p n (job.search p n).unresolved := by
  have finds := job.search_finds p n
  generalize job.search p n = f at finds ⊢
  cases finds with
  | @replaced span call notes plan amd among decided =>
      rcases decision_lenient lenient call with ⟨list, -, left⟩ | ⟨-, silent⟩
      · cases decided.symm.trans left
      · rw [decided] at silent
        rw [replace_unresolved silent]
        exact .converted amd among decided
  | @failed span call list amd among decided =>
      rcases decision_lenient lenient call with ⟨list, -, left⟩ | ⟨-, silent⟩
      · cases decided.symm.trans left
      · rw [decided] at silent
        exact silent.elim
  | returned inside => exact .returned ⟨_, _, rfl, inside⟩
  | passed remarks quiet => exact remarks.noted lenient quiet

theorem search_skip (p : Position) (n : Node) :
    (job.search p n).failure = none := by
  obtain ⟨root, source, policy⟩ := job
  cases lenient
  exact (search_agree p n).resolved

theorem searchAll_unresolved {p : Position} {ns : List Node} :
    (job.searchAll p ns).unresolved =
      ns.flatMap fun n => (job.search p n).unresolved := by
  induction ns with
  | nil =>
      rw [searchAll]
      rfl
  | cons n ns ih =>
      rw [searchAll, Findings.followedBy_unresolved (search_skip lenient p n), ih,
        List.flatMap_cons]

theorem Leaves.unresolved {p : Position} {n : Node} {list : Unresolved}
    (leaves : job.Leaves p n list) :
    list ∈ (job.search p n).unresolved := by
  obtain ⟨span, call, rfl, -, -, found⟩ := id leaves
  have noted := search_noted lenient p (.mk .expressionStatement span [call])
  generalize (job.search p _).unresolved = lists at noted ⊢
  cases noted with
  | converted _ _ decided => simp [decision, found, lenient] at decided
  | returned returns => exact absurd returns (not_returns_of_kind nofun)
  | @left _ other _ _ left =>
      obtain ⟨_, _, same, -, -, found'⟩ := left
      cases same
      obtain ⟨name, offset⟩ := other
      cases found.symm.trans found'
      exact List.mem_cons_self
  | passed _ _ settled => exact absurd leaves (settled list)

theorem Searches.unresolved {q : Position} {k : Node}
    (searches : job.Searches q k) :
    ∀ list ∈ (job.search q k).unresolved,
      list ∈ (job.search .top job.root).unresolved := by
  induction searches with
  | top => exact fun _ found => found
  | @child p n m _ still quiet member ih =>
      intro list found
      have below : list ∈
          (job.searchAll (p.below n) n.children).unresolved := by
        rw [searchAll_unresolved lenient]
        exact List.mem_flatMap_of_mem member found
      apply ih
      have noted := search_noted lenient p n
      generalize (job.search p n).unresolved = lists at noted ⊢
      cases noted with
      | converted amd among decided => exact absurd ⟨_, _, _, _, rfl, amd, among, decided⟩ still
      | returned returns => exact absurd returns quiet
      | left => exact List.mem_cons_of_mem _ below
      | passed => exact below
  | @inside p span call notes plan _ amd among decided ih =>
      intro list found
      apply ih
      have noted := search_noted lenient p
        (.mk .expressionStatement span [call])
      have converts :
          Converts job.root job.policy p.path (.mk .expressionStatement span [call]) :=
        ⟨_, _, _, _, rfl, amd, among, decided⟩
      generalize (job.search p _).unresolved = lists at noted ⊢
      cases noted with
      | converted _ _ decided' =>
          cases decided.symm.trans decided'
          rw [foundIn, searchAll_unresolved lenient, List.flatMap_singleton]
          exact found
      | returned returns =>
          obtain ⟨_, _, same, -⟩ := returns
          cases same
      | left still => exact absurd converts still
      | passed still => exact absurd converts still

theorem Searches.leaves {p : Position} {n : Node} {list : Unresolved}
    (searches : job.Searches p n)
    (found : list ∈ (job.search p n).unresolved) :
    job.LeavesUnresolved list := by
  induction n using Node.induction generalizing p with
  | step n ih =>
      have down (still : ¬ Converts job.root job.policy p.path n) (quiet : ¬ Returns p n)
          (below : list ∈
            (job.searchAll (p.below n) n.children).unresolved) :
          job.LeavesUnresolved list := by
        rw [searchAll_unresolved lenient, List.mem_flatMap] at below
        obtain ⟨m, member, found⟩ := below
        exact ih m member (searches.child still quiet member) found
      have noted := search_noted lenient p n
      generalize (job.search p n).unresolved = lists at noted found
      cases noted with
      | @converted span call notes plan amd among decided =>
          rw [foundIn, searchAll_unresolved lenient, List.flatMap_singleton] at found
          exact ih call (List.mem_singleton_self _) (searches.inside amd among decided) found
      | returned => cases found
      | left still quiet left =>
          rcases List.mem_cons.mp found with rfl | below
          · exact ⟨p, n, searches, left⟩
          · exact down still quiet below
      | passed still quiet => exact down still quiet found

theorem mem_unresolved {list : Unresolved} :
    list ∈ (job.search .top job.root).unresolved ↔
      job.LeavesUnresolved list := by
  constructor
  · intro noted
    exact Searches.leaves lenient .top noted
  · rintro ⟨p, n, searches, leaves⟩
    exact searches.unresolved lenient list (leaves.unresolved lenient)

end Job

/-- The lists stand in order between two offsets. -/
structure Ascends (lo : Nat) (lists : List Unresolved) (hi : Nat) : Prop where
  ordered : lists.Pairwise fun first later => first.offset < later.offset
  bounds : ∀ list ∈ lists, lo ≤ list.offset ∧ list.offset < hi

namespace Ascends

variable {lo mid hi : Nat} {lists later : List Unresolved}

theorem nil : Ascends lo [] hi := ⟨.nil, nofun⟩

theorem widen {lo' hi' : Nat} (ascends : Ascends lo lists hi) (low : lo' ≤ lo) (high : hi ≤ hi') :
    Ascends lo' lists hi' := by
  refine ⟨ascends.ordered, fun list member => ?_⟩
  have bounds := ascends.bounds list member
  omega

theorem cons {list : Unresolved} (start : lo ≤ list.offset) (before : list.offset < mid)
    (le : mid ≤ hi) (ascends : Ascends mid lists hi) : Ascends lo (list :: lists) hi := by
  constructor
  · refine List.pairwise_cons.mpr ⟨fun other member => ?_, ascends.ordered⟩
    have bounds := ascends.bounds other member
    omega
  · refine List.forall_mem_cons.mpr ⟨by omega, ?_⟩
    exact (ascends.widen (by omega) (Nat.le_refl hi)).bounds

theorem append (first : Ascends lo lists mid) (rest : Ascends mid later hi) (low : lo ≤ mid)
    (high : mid ≤ hi) : Ascends lo (lists ++ later) hi := by
  constructor
  · refine List.pairwise_append.mpr ⟨first.ordered, rest.ordered, fun a before b after => ?_⟩
    have bounds := first.bounds a before
    have bounds' := rest.bounds b after
    omega
  · refine List.forall_mem_append.mpr ⟨?_, ?_⟩
    · exact (first.widen (Nat.le_refl lo) high).bounds
    · exact (rest.widen low (Nat.le_refl hi)).bounds

end Ascends

namespace Job

variable {job : Job} {text : Text} (lenient : job.policy = .skip)
include lenient

theorem searchAll_ascends {p : Position} {ns : List Node} {lo hi : Nat}
    (nested : Nested text lo ns hi)
    (each : ∀ n ∈ ns, Ascends n.span.start
      (job.search p n).unresolved n.span.stop) :
    Ascends lo (job.searchAll p ns).unresolved hi := by
  rw [searchAll_unresolved lenient]
  induction nested with
  | nil _ => exact .nil
  | node start _ inner rest _ ih =>
      rw [List.forall_mem_cons] at each
      rw [List.flatMap_cons]
      have inner := inner.le
      exact (each.1.widen start (Nat.le_refl _)).append (ih each.2) (by omega) rest.le

end Job

theorem dependencies_unresolved {root call : Node} {list : Unresolved}
    (found : dependencies root call = .error (.unresolved list.name list.offset)) :
    ∃ span children others, arguments call = .mk (.identifier list.name) span children :: others ∧
      list.offset = span.start := by
  obtain ⟨name, offset⟩ := list
  have lists := dependencies_listsAs root call
  rw [found] at lists
  cases lists with
  | unresolved same _ _ => exact ⟨_, _, _, same, rfl⟩

namespace Job

variable {job : Job} {text : Text}

theorem search_leaf {p : Position} {n : Node} (stands : n.Stands text)
    (leaf : n.kind.isLeaf = true) : job.search p n = .none := by
  have kind (other : Node.Kind) (composite : other.isLeaf = false) : n.kind ≠ other := by
    rintro rfl
    cases leaf.symm.trans composite
  rw [search_other, stands.leaf leaf, searchAll]
  · rintro span call rfl
    exact kind _ rfl rfl
  · rintro span argument rfl
    exact kind _ rfl rfl

theorem callee_of_isAmd {call : Node} (amd : isAmd call = true) :
    ∃ name span children,
      call.children = .mk (.identifier name) span children :: arguments call := by
  unfold isAmd at amd
  split at amd
  · exact ⟨_, _, _, rfl⟩
  · cases amd

variable (lenient : job.policy = .skip)
include lenient

theorem arguments_ascend (p : Position) {call : Node} {others : List Node} {name : Text}
    {span : Span} {children : List Node}
    (nested : Nested text call.span.start call.children call.span.stop) (amd : isAmd call = true)
    (split : arguments call = .mk (.identifier name) span children :: others)
    (each : ∀ n ∈ call.children, ∀ p, Ascends n.span.start
      (job.search p n).unresolved n.span.stop) :
    call.span.start ≤ span.start ∧ span.start < span.stop ∧ span.stop ≤ call.span.stop ∧
      Ascends span.stop (job.search p call).unresolved
        call.span.stop := by
  obtain ⟨callee, calleeSpan, below, parts⟩ := callee_of_isAmd amd
  rw [split] at parts
  rw [parts] at nested each
  cases nested with
  | node start callee _ rest =>
    cases rest with
    | node start' operand _ rest =>
        have low : calleeSpan.start < calleeSpan.stop := callee.filled rfl
        refine ⟨?_, operand.filled rfl, rest.le, ?_⟩
        · exact Nat.le_trans start (Nat.le_trans (Nat.le_of_lt low) start')
        · have isCall := kind_of_isAmd amd
          rw [search_other (by rintro _ _ rfl; cases isCall) (by rintro _ _ rfl; cases isCall),
            parts, searchAll_unresolved lenient, List.flatMap_cons, List.flatMap_cons,
            search_leaf callee rfl, search_leaf operand rfl, ← searchAll_unresolved lenient]
          apply searchAll_ascends lenient rest
          intro n member
          exact each n (List.mem_cons_of_mem _ (List.mem_cons_of_mem _ member)) _

theorem search_ascends {n : Node} (nested : Nested text n.span.start n.children n.span.stop) :
    (∀ p, Ascends n.span.start (job.search p n).unresolved n.span.stop) ∧
      ∀ m ∈ n.children, ∀ p,
        Ascends m.span.start (job.search p m).unresolved m.span.stop := by
  -- A call that is left is passed on the way from its statement to its arguments, so the induction
  -- carries the children along.
  induction n using Node.induction with
  | step n ih =>
      have each (m : Node) (member : m ∈ n.children) := ih m member (nested.mem member).2
      have below (q : Position) : Ascends n.span.start
          (job.searchAll q n.children).unresolved n.span.stop :=
        searchAll_ascends lenient nested fun m member => (each m member).1 q
      refine ⟨fun p => ?_, fun m member => (each m member).1⟩
      have noted := search_noted lenient p n
      generalize (job.search p n).unresolved = lists at noted ⊢
      cases noted with
      | converted => exact below _
      | returned => exact .nil
      | passed => exact below _
      | @left _ list _ _ left =>
          obtain ⟨span, call, rfl, amd, -, found⟩ := left
          obtain ⟨operand, children, others, split, offset⟩ := dependencies_unresolved found
          have member := List.mem_singleton_self call
          obtain ⟨-, inside⟩ := nested.mem member
          obtain ⟨start, -, stop⟩ := nested.bounds call member
          obtain ⟨low, filled, inCall, ascends⟩ := arguments_ascend lenient
            (p.below (.mk .expressionStatement span [call])) inside amd split (each call member).2
          rw [← offset] at low filled
          rw [Node.children, searchAll_unresolved lenient, List.flatMap_singleton]
          apply Ascends.cons (Nat.le_trans start low) filled (Nat.le_trans inCall stop)
          exact ascends.widen (Nat.le_refl _) stop

end Job

theorem Ascends.head?_eq_some {lo hi : Nat} {lists : List Unresolved} {list : Unresolved}
    (ascends : Ascends lo lists hi) : lists.head? = some list ↔
      list ∈ lists ∧ ∀ other ∈ lists, other = list ∨ list.offset < other.offset := by
  cases lists with
  | nil => simp
  | cons first rest =>
      have later := (List.pairwise_cons.mp ascends.ordered).1
      rw [List.head?_cons, Option.some.injEq]
      constructor
      · rintro rfl
        refine ⟨List.mem_cons_self, List.forall_mem_cons.mpr ⟨.inl rfl, ?_⟩⟩
        exact fun other member => .inr (later other member)
      · rintro ⟨member, least⟩
        rcases List.mem_cons.mp member with same | behind
        · exact same.symm
        · rcases least first List.mem_cons_self with same | before
          · exact same
          · have after := later list behind
            omega

/-- A list that a run leaves a call for, with a smaller offset than any other. -/
def Job.LeavesFirst (job : Job) (list : Unresolved) : Prop :=
  job.LeavesUnresolved list ∧
    ∀ other, job.LeavesUnresolved other → other = list ∨ list.offset < other.offset

theorem program_ascends {mode : Mode} {text : Text} {job : Job} (lenient : job.policy = .skip)
    (parsed : readProgram mode text = .ok job.root) : Ascends job.root.span.start
      (job.search .top job.root).unresolved job.root.span.stop := by
  obtain ⟨body, program, nested⟩ := readProgram_nested parsed
  rw [program] at parsed ⊢
  exact (Job.search_ascends lenient nested).1 .top

theorem head?_unresolved {mode : Mode} {text : Text} {job : Job} {list : Unresolved}
    (lenient : job.policy = .skip) (parsed : readProgram mode text = .ok job.root) :
    (job.search .top job.root).unresolved.head? = some list ↔ job.LeavesFirst list := by
  rw [(program_ascends lenient parsed).head?_eq_some]
  simp only [Job.mem_unresolved lenient, Job.LeavesFirst]

theorem search_abort {mode : Mode} {text : Text} {root : Node} (source : Source)
    (list : Unresolved) (parsed : readProgram mode text = .ok root) :
    ((⟨root, source, .abort⟩ : Job).search .top root).failure = some list ↔
      Job.LeavesFirst ⟨root, source, .skip⟩ list := by
  rw [(Job.search_agree .top root).first]
  exact head?_unresolved rfl parsed

theorem unwrapProgram_skip (text : Text) (root : Node) :
    let job : Job := ⟨root, .ofProgram text root, .skip⟩
    unwrapProgram .skip text root = ⟨(job.search .top root).events,
      .ok (job.source.render ⟨0, text.byteLength⟩ (job.search .top root).edits 0)⟩ := by
  intro job
  have done : (job.search .top root).failure = none := Job.search_skip rfl .top root
  unfold unwrapProgram
  dsimp only
  rw [done]

theorem convert_abort {mode : Mode} {text : Text} {list : Unresolved} :
    convert ⟨mode, .abort⟩ text = .error (.unresolved list) ↔
      ∃ root, readProgram mode text = .ok root ∧
        Job.LeavesFirst ⟨root, .ofProgram text root, .skip⟩ list := by
  unfold convert conversion
  cases parsed : readProgram mode text with
  | error error => simp
  | ok root =>
      have failure := search_abort (.ofProgram text root) list parsed
      simp only [Except.ok.injEq, exists_eq_left', ← failure, unwrapProgram]
      split
      next found => simp [found]
      next found => simp [found]

theorem leavesFirst {mode : Mode} {text : Text} {job : Job} {list : Unresolved}
    (lenient : job.policy = .skip) (parsed : readProgram mode text = .ok job.root)
    (leaves : job.LeavesUnresolved list) : ∃ first, job.LeavesFirst first := by
  have noted := (Job.mem_unresolved lenient).mpr leaves
  cases found : (job.search .top job.root).unresolved.head? with
  | none =>
      rw [List.head?_eq_none_iff.mp found] at noted
      cases noted
  | some first => exact ⟨first, (head?_unresolved lenient parsed).mp found⟩

/-- What succeeds under the strict policy gives the same output under the lenient one, which never
fails for a list. The strict one fails where the lenient one leaves a call for a list, and names
the first such list. -/
theorem policies_agree (mode : Mode) (text : Text) :
    (∀ output, convert ⟨mode, .abort⟩ text = .ok output →
      convert ⟨mode, .skip⟩ text = .ok output) ∧
    (∀ list, convert ⟨mode, .skip⟩ text ≠ .error (.unresolved list)) ∧
    ((∃ list, convert ⟨mode, .abort⟩ text = .error (.unresolved list)) ↔
      ∃ root, readProgram mode text = .ok root ∧
        ∃ list, Job.LeavesUnresolved ⟨root, .ofProgram text root, .skip⟩ list) ∧
    ∀ list, convert ⟨mode, .abort⟩ text = .error (.unresolved list) ↔
      ∃ root, readProgram mode text = .ok root ∧
        Job.LeavesFirst ⟨root, .ofProgram text root, .skip⟩ list := by
  refine ⟨?_, ?_, ?_, fun _ => convert_abort⟩
  · intro output converted
    obtain ⟨root, parsed, done, rfl⟩ := convert_ok converted
    have same := (Job.search_agree .top root).same done
    simp only [convert, conversion, parsed, unwrapProgram, ← same, done]
  · intro list failed
    unfold convert conversion at failed
    cases parsed : readProgram mode text with
    | error error => simp [parsed] at failed
    | ok root => simp [parsed, unwrapProgram_skip] at failed
  · simp only [convert_abort]
    constructor
    · rintro ⟨list, root, parsed, leaves, -⟩
      exact ⟨root, parsed, list, leaves⟩
    · rintro ⟨root, parsed, list, leaves⟩
      obtain ⟨first, least⟩ := leavesFirst rfl parsed leaves
      exact ⟨first, root, parsed, least⟩

theorem policies_agree_nested :
    let text := "require(deps, function () { require(more, f); });".toList
    let plain := "define(function () { a(); });".toList
    let list : Unresolved := ⟨"deps".toList, 8⟩
    convert ⟨.global, .abort⟩ text = .error (.unresolved list) ∧
      (∃ root, readProgram .global text = .ok root ∧
        Job.LeavesFirst ⟨root, .ofProgram text root, .skip⟩ list) ∧
      convert ⟨.global, .abort⟩ plain = .ok "a();".toList ∧
      convert ⟨.global, .skip⟩ plain = .ok "a();".toList := by
  intro text plain list
  have failed : convert ⟨.global, .abort⟩ text = .error (.unresolved list) := by decide +kernel
  have converted : convert ⟨.global, .abort⟩ plain =
      .ok "a();".toList := ok_of_toOption (by decide +kernel)
  exact ⟨failed, ((policies_agree .global text).2.2.2 list).mp failed, converted,
    (policies_agree .global _).1 _ converted⟩

theorem conversion_leftUnresolved {mode : Mode} {text : Text} {list : Unresolved} :
    .leftUnresolved list ∈ (conversion ⟨mode, .skip⟩ text).events ↔
      ∃ root, readProgram mode text = .ok root ∧
        Job.LeavesUnresolved ⟨root, .ofProgram text root, .skip⟩ list := by
  unfold conversion
  cases parsed : readProgram mode text with
  | error error => simp
  | ok root =>
      let job : Job := ⟨root, .ofProgram text root, .skip⟩
      have noted : list ∈ (job.search .top root).unresolved ↔ job.LeavesUnresolved list :=
        Job.mem_unresolved rfl
      have events : (unwrapProgram .skip text root).events = (job.search .top root).events := by
        rw [unwrapProgram_skip]
      simp only [Except.ok.injEq, exists_eq_left']
      rw [events, ← noted, Findings.unresolved, List.mem_filterMap]
      constructor
      · intro member
        exact ⟨_, member, rfl⟩
      · rintro ⟨event, member, same⟩
        cases event <;> cases same
        exact member

end AmdUnwrap
