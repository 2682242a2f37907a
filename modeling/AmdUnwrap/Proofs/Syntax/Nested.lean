import AmdUnwrap.Proofs.Syntax.Grammar.Statement
import AmdUnwrap.Proofs.Syntax.Scan

/-!
The spans of a tree: those of brothers follow each other, those of children stand inside that of
their parent, and each but an empty one starts and ends with a token.
-/

namespace AmdUnwrap

theorem Token.Rereads.follows {t u : Token} {p : Place} (again : t.Rereads u)
    (follows : Token.Follows p t) : Token.Follows p u := by
  intro real
  have start := Passes.start_rereads again
  rcases again with ⟨slash, rfl⟩ | ⟨brace, rfl⟩
  · have before : t.kind.isReal = true := by
      rcases slash with slash | slash <;>
        exact isReal_of_separates (separates_of_isPunct slash (b := false))
    obtain ⟨gap, spelling, leads, spelled⟩ := follows before
    obtain ⟨other, respelled⟩ := asRegex_spelled spelled slash real
    exact ⟨gap, other, start ▸ leads, respelled⟩
  · obtain ⟨gap, spelling, leads, spelled⟩ :=
      follows (isReal_of_separates (separates_of_isPunct brace (b := false)))
    obtain ⟨other, respelled⟩ := asTemplate_spelled spelled brace real
    exact ⟨gap, other, start ▸ leads, respelled⟩

theorem Passes.runs {c c' : Cursor} {ts : List Token} (passes : Passes c ts c') {p : Place}
    (follows : Token.Follows p c.token) : ∃ q, Runs p ts q ∧ Token.Follows q c'.token := by
  induction passes generalizing p with
  | stay => exact ⟨p, .nil, follows⟩
  | move real _ ih =>
      obtain ⟨gap, spelling, leads, spelled⟩ := follows real
      obtain ⟨q, runs, after⟩ := ih (Token.next_follows _ _)
      exact ⟨q, .cons leads spelled runs, after⟩
  | reread again _ ih => exact ih (again.follows follows)

/-- The span names a part of the text that no white space edges. -/
def Text.Holds (text : Text) (span : Span) : Prop :=
  ∃ before part after, text = before ++ (part ++ after) ∧
    span = ⟨before.byteLength, before.byteLength + part.byteLength⟩ ∧ part.Solid

/-- The body of a function stands between two braces. -/
def Text.Encloses (text : Text) (span : Span) (body : List Node) : Prop :=
  (∃ before inner after : Text, text = before ++ ('{' :: inner ++ '}' :: after) ∧
    span = ⟨before.byteLength, before.byteLength + inner.byteLength + 2⟩) ∧
    ∀ n ∈ body, span.start + 1 ≤ n.span.start ∧ n.span.stop + 1 ≤ span.stop

/-- A gap of an array has no extent, nor has the body that a concise arrow function would make
of one. -/
def Node.Kind.mayBeEmpty : Node.Kind → Bool
  | .elision | .functionBody | .expressionStatement => true
  | _ => false

def returnKeyword : Text := ['r', 'e', 't', 'u', 'r', 'n']

def Node.Kind.isLeaf : Node.Kind → Bool
  | .string _ | .identifier _ | .binding _ => true
  | _ => false

/-- How a node stands in the text. -/
structure Node.Stands (text : Text) (n : Node) : Prop where
  solid : n.span.start < n.span.stop → text.Holds n.span
  filled : n.kind.mayBeEmpty = false → n.span.start < n.span.stop
  closed : n.kind = .call → ∀ m ∈ n.children, m.span.stop < n.span.stop
  braced : n.kind.isBraced = true → ∃ heads span body,
    n.children = heads ++ [.mk .functionBody span body] ∧ text.Encloses span body
  returns : n.kind = .returnStatement → ∃ before after : Text,
    text = before ++ (returnKeyword ++ after) ∧ n.span.start = before.byteLength ∧
      ∀ m ∈ n.children, n.span.start + returnKeyword.byteLength ≤ m.span.start
  leaf : n.kind.isLeaf = true → n.children = []
  quoted : ∀ raw, n.kind = .string raw → ∃ quote, text.slice n.span = quote :: raw ++ [quote]
  named : ∀ name, n.kind = .binding name → Name.Denotes (text.slice n.span) name

/-- The nodes stand in order between two offsets, and their children inside of them. -/
inductive Nested (text : Text) : Nat → List Node → Nat → Prop where
  | nil {lo hi : Nat} : lo ≤ hi → Nested text lo [] hi
  | node {lo hi : Nat} {n : Node} {ns : List Node} : lo ≤ n.span.start → n.Stands text →
      Nested text n.span.start n.children n.span.stop → Nested text n.span.stop ns hi →
      Nested text lo (n :: ns) hi

namespace Nested

variable {text : Text} {lo mid hi : Nat} {ns ms : List Node}

theorem le (nested : Nested text lo ns hi) : lo ≤ hi := by
  induction nested with
  | nil le => exact le
  | node start _ _ _ inner rest => omega

theorem append (first : Nested text lo ns mid) (later : Nested text mid ms hi) :
    Nested text lo (ns ++ ms) hi := by
  induction first with
  | nil le =>
      cases later with
      | nil le' => exact .nil (by omega)
      | node start stands inner rest => exact .node (by omega) stands inner rest
  | node start stands inner _ _ ih => exact .node start stands inner (ih later)

theorem widen {lo' : Nat} (nested : Nested text lo ns hi) (le : lo' ≤ lo) :
    Nested text lo' ns hi := append (.nil le) nested

theorem reach {hi' : Nat} (nested : Nested text lo ns hi) (le : hi ≤ hi') :
    Nested text lo ns hi' := by
  have whole := nested.append (.nil le)
  rwa [List.append_nil] at whole

theorem split (nested : Nested text lo (ns ++ ms) hi) :
    ∃ mid, Nested text lo ns mid ∧ Nested text mid ms hi := by
  induction ns generalizing lo with
  | nil => exact ⟨lo, .nil (Nat.le_refl _), nested⟩
  | cons n ns ih =>
      cases nested with
      | node start stands inner rest =>
          obtain ⟨mid, first, later⟩ := ih rest
          exact ⟨mid, .node start stands inner first, later⟩

theorem bounds (nested : Nested text lo ns hi) :
    ∀ n ∈ ns, lo ≤ n.span.start ∧ n.span.start ≤ n.span.stop ∧ n.span.stop ≤ hi := by
  induction nested with
  | nil _ => simp
  | node start stands inner rest _ ih =>
      have inner := inner.le
      have rest := rest.le
      rw [List.forall_mem_cons]
      refine ⟨⟨start, inner, rest⟩, fun m member => ?_⟩
      obtain ⟨first, between, last⟩ := ih m member
      exact ⟨by omega, between, last⟩

theorem tighten {lo' hi' : Nat} (nested : Nested text lo ns hi) (le : lo' ≤ hi')
    (inside : ∀ n ∈ ns, lo' ≤ n.span.start ∧ n.span.stop ≤ hi') : Nested text lo' ns hi' := by
  induction nested generalizing lo' with
  | nil _ => exact .nil le
  | node start stands inner rest _ ih =>
      rw [List.forall_mem_cons] at inside
      obtain ⟨⟨first, last⟩, others⟩ := inside
      apply Nested.node first stands inner
      apply ih last
      intro m member
      exact ⟨(rest.bounds m member).1, (others m member).2⟩

theorem split_last {n : Node} (nested : Nested text lo (ns ++ ms) hi)
    (last : ns.getLast? = some n) :
    Nested text lo ns n.span.stop ∧ Nested text n.span.stop ms hi := by
  obtain ⟨front, rfl⟩ := List.getLast?_eq_some_iff.mp last
  rw [List.append_assoc] at nested
  obtain ⟨mid, first, rest⟩ := nested.split
  cases rest with
  | node start stands inner later =>
      exact ⟨first.append (.node start stands inner (.nil (Nat.le_refl _))), later⟩

theorem mem (nested : Nested text lo ns hi) {n : Node} (member : n ∈ ns) :
    n.Stands text ∧ Nested text n.span.start n.children n.span.stop := by
  induction nested with
  | nil _ => cases member
  | node start stands inner _ _ ih =>
      rcases List.mem_cons.mp member with rfl | member
      · exact ⟨stands, inner⟩
      · exact ih member

end Nested

theorem Text.Holds.lt {text : Text} {span : Span} (holds : text.Holds span) :
    span.start < span.stop := by
  obtain ⟨before, part, after, -, rfl, solid⟩ := holds
  have := Text.byteLength_pos solid.ne_nil
  dsimp only
  omega

namespace Runs

variable {text before : Text} {p q : Place}

theorem holds {t : Token} {ts : List Token} (located : (⟨0, text⟩ : Place).Leads before p)
    (runs : Runs p (t :: ts) q) : text.Holds ⟨t.start.offset, q.offset⟩ := by
  obtain ⟨gap, leads, runs⟩ := runs.restart
  obtain ⟨part, across, solid⟩ := runs.solid
  have start := located.trans leads
  refine ⟨before ++ gap, part, q.rest, ?_, ?_, solid⟩
  · rw [← across.rest]
    exact start.rest
  · rw [across.offset, start.offset, Nat.zero_add]

theorem stretch {inner ts : List Token} (located : (⟨0, text⟩ : Place).Leads before p)
    (runs : Runs p (inner ++ ts) q) (some : inner ≠ []) :
    ∃ (start stop : Place) (above upto : Text), Token.extent inner = ⟨start.offset, stop.offset⟩ ∧
      text.Holds ⟨start.offset, stop.offset⟩ ∧ p.offset ≤ start.offset ∧
      (⟨0, text⟩ : Place).Leads above start ∧ Runs start inner stop ∧
      (⟨0, text⟩ : Place).Leads upto stop ∧ Runs stop ts q := by
  obtain ⟨stop, first, later⟩ := runs.split
  obtain ⟨t, us, rfl⟩ := List.exists_cons_of_ne_nil some
  obtain ⟨gap, leads, again⟩ := first.restart
  obtain ⟨passed, across⟩ := first.leads
  exact ⟨t.start, stop, before ++ gap, before ++ passed, first.extent, first.holds located,
    leads.le, located.trans leads, again, located.trans across, later⟩

theorem lt {t : Token} (runs : Runs p [t] q) : p.offset < q.offset := by
  cases runs with
  | cons leads spelled rest =>
      cases rest
      have room := Text.byteLength_pos spelled.solid.ne_nil
      have le := leads.le
      have offset := spelled.leads.offset
      omega

theorem punct {t : Token} {sign : Punct} {c : Char} (alone : ∀ p ∈ Punct.spellings, p.2 = sign →
    p.1 = [c]) (runs : Runs p [t] q) (same : t.isPunct sign = true) :
    ∃ gap, p.Leads gap t.start ∧ t.start.Leads [c] q := by
  cases runs with
  | cons leads spelled rest =>
      cases rest
      obtain rfl := alone _ (spelled.sign (eq_of_beq same)) rfl
      exact ⟨_, leads, spelled.leads⟩

theorem encloses {m₁ m₂ : Place} {opening close : Token} {middle : List Token} {body : List Node}
    (located : (⟨0, text⟩ : Place).Leads before p) (lbrace : opening.isPunct .lbrace = true)
    (rbrace : close.isPunct .rbrace = true) (first : Runs p [opening] m₁)
    (between : Runs m₁ middle m₂) (last : Runs m₂ [close] q)
    (nested : Nested text m₁.offset body m₂.offset) :
    text.Encloses ⟨opening.start.offset, q.offset⟩ body := by
  obtain ⟨gap, leads, start⟩ := first.punct (c := '{') (by decide) lbrace
  obtain ⟨passed, inner⟩ := between.leads
  obtain ⟨gap', leads', stop⟩ := last.punct (c := '}') (by decide) rbrace
  have opened := located.trans leads
  have inside := inner.trans leads'
  have one : Text.byteLength ['{'] = 1 := rfl
  have one' : Text.byteLength ['}'] = 1 := rfl
  have offset := start.offset
  have offset' := stop.offset
  rw [one] at offset
  rw [one'] at offset'
  refine ⟨⟨before ++ gap, passed ++ gap', q.rest, ?_, ?_⟩, fun n member => ?_⟩
  · have whole := opened.trans (start.trans (inside.trans stop))
    have rest : text = _ := whole.rest
    rw [rest]
    simp
  · rw [offset', inside.offset, offset, opened.offset]
    simp
    omega
  · obtain ⟨low, -, high⟩ := nested.bounds n member
    have le := leads'.le
    dsimp only
    omega

end Runs

namespace Node

variable {text : Text} {kind : Node.Kind} {span : Span} {children : List Node}

theorem stands_of_holds (holds : text.Holds span) (call : kind ≠ .call)
    (braced : kind.isBraced = false) (returns : kind ≠ .returnStatement)
    (leaf : kind.isLeaf = false) : (mk kind span children).Stands text where
  solid _ := holds
  filled _ := holds.lt
  closed same := absurd same call
  braced same := absurd same (Bool.eq_false_iff.mp braced)
  returns same := absurd same returns
  leaf same := absurd same (Bool.eq_false_iff.mp leaf)
  quoted raw same := by
    cases same
    cases leaf
  named name same := by
    cases same
    cases leaf

theorem Kind.isBraced_of_isComposite (composite : kind.isComposite = true) :
    kind.isBraced = false := by
  cases kind <;> first | rfl | cases composite

theorem Kind.ne_call_of_isComposite (composite : kind.isComposite = true) : kind ≠ .call := by
  rintro rfl
  cases composite

theorem Kind.ne_return_of_isComposite (composite : kind.isComposite = true) :
    kind ≠ .returnStatement := by
  rintro rfl
  cases composite

theorem Kind.isLeaf_of_isComposite (composite : kind.isComposite = true) :
    kind.isLeaf = false := by
  cases kind <;> first | rfl | cases composite

theorem stands_of_isComposite (composite : kind.isComposite = true) (holds : text.Holds span) :
    (mk kind span children).Stands text :=
  stands_of_holds holds (Kind.ne_call_of_isComposite composite)
    (Kind.isBraced_of_isComposite composite) (Kind.ne_return_of_isComposite composite)
    (Kind.isLeaf_of_isComposite composite)

theorem Kind.isLeaf_of_isBraced (braced : kind.isBraced = true) : kind.isLeaf = false := by
  cases kind <;> first | rfl | cases braced

theorem Kind.isBraced_of_mayBeEmpty (may : kind.mayBeEmpty = true) : kind.isBraced = false := by
  cases kind <;> first | rfl | cases may

theorem stands_of_call (holds : text.Holds span)
    (closed : ∀ n ∈ children, n.span.stop < span.stop) : (mk .call span children).Stands text where
  solid _ := holds
  filled _ := holds.lt
  closed _ := closed
  braced := nofun
  returns := nofun
  leaf := nofun
  quoted := nofun
  named := nofun

theorem stands_of_isBraced {bodySpan : Span} {heads body : List Node}
    (isBraced : kind.isBraced = true) (holds : text.Holds span)
    (encloses : text.Encloses bodySpan body) :
    (mk kind span (heads ++ [.mk .functionBody bodySpan body])).Stands text where
  solid _ := holds
  filled _ := holds.lt
  closed same := by
    cases same
    cases isBraced
  braced _ := ⟨heads, bodySpan, body, rfl, encloses⟩
  returns same := by
    cases same
    cases isBraced
  leaf same := absurd same (Bool.eq_false_iff.mp (Kind.isLeaf_of_isBraced isBraced))
  quoted raw same := by
    cases same
    cases isBraced
  named name same := by
    cases same
    cases isBraced

theorem stands_of_mayBeEmpty (may : kind.mayBeEmpty = true)
    (solid : span.start < span.stop → text.Holds span) : (mk kind span children).Stands text where
  solid := solid
  filled must := absurd (may.symm.trans must) (by simp)
  closed same := by
    cases same
    cases may
  braced same := absurd same (Bool.eq_false_iff.mp (Kind.isBraced_of_mayBeEmpty may))
  returns same := by
    cases same
    cases may
  leaf same := by
    cases kind <;> cases may <;> cases same
  quoted raw same := by
    cases same
    cases may
  named name same := by
    cases same
    cases may

end Node

theorem Runs.functionBody {text before : Text} {p q : Place} {opening close : Token}
    {middle : List Token} {body : List Node} (located : (⟨0, text⟩ : Place).Leads before p)
    (runs : Runs p (opening :: middle ++ [close]) q) (lbrace : opening.isPunct .lbrace = true)
    (rbrace : close.isPunct .rbrace = true)
    (inner : ∀ {before p q}, (⟨0, text⟩ : Place).Leads before p → Runs p middle q →
      Nested text p.offset body q.offset) :
    text.Encloses ⟨opening.start.offset, close.stop.offset⟩ body ∧ Nested text p.offset
      [.mk .functionBody ⟨opening.start.offset, close.stop.offset⟩ body] q.offset := by
  have holds := runs.holds located
  obtain ⟨gap, leads, -⟩ := runs.restart
  obtain ⟨m₁, first, rest⟩ := split (show Runs p ([opening] ++ (middle ++ [close])) q from runs)
  obtain ⟨passed, across⟩ := first.leads
  obtain ⟨m₂, between, last⟩ := rest.split
  have nested := inner (located.trans across) between
  have stop : close.stop = q := by
    cases last with
    | cons _ _ rest =>
        cases rest
        rfl
  have encloses := encloses located lbrace rbrace first between last nested
  rw [stop]
  refine ⟨encloses, .node leads.le (Node.stands_of_mayBeEmpty rfl fun _ => holds) ?_
    (.nil (Nat.le_refl _))⟩
  apply nested.tighten (Nat.le_of_lt holds.lt)
  intro n member
  obtain ⟨low, high⟩ := encloses.2 n member
  exact ⟨Nat.le_of_succ_le low, Nat.le_of_succ_le high⟩

theorem spelling_of_return {spelling : Text}
    (found : Keyword.ofName? spelling = some .returnWord) : spelling = returnKeyword := by
  obtain ⟨first, later, all, -⟩ := List.lookup_eq_some_iff.mp found
  have member : (spelling, Keyword.returnWord) ∈ Keyword.reserved ++ Keyword.contextual := by
    simp [all]
  have alone : ∀ p ∈ Keyword.reserved ++ Keyword.contextual,
      p.2 = .returnWord → p.1 = returnKeyword := by decide
  exact alone _ member rfl

theorem Token.Spelled.slice {text before spelling : Text} {t : Token}
    (spelled : t.Spelled spelling) (start : (⟨0, text⟩ : Place).Leads before t.start) :
    text.slice t.span = spelling := by
  have rest : text = before ++ (spelling ++ t.stop.rest) :=
    start.rest.trans (by rw [spelled.leads.rest])
  apply Text.slice_eq rest
  · exact start.offset.trans (Nat.zero_add _)
  · exact spelled.leads.offset.trans (by rw [start.offset, Nat.zero_add])

theorem Token.Spelled.stands {text before spelling : Text} {t : Token} {kind : Node.Kind}
    (spelled : t.Spelled spelling) (start : (⟨0, text⟩ : Place).Leads before t.start)
    (spells : kind.spells t) : (Node.mk kind t.span []).Stands text := by
  have holds : text.Holds t.span := Runs.holds start (.cons (.refl _) spelled .nil)
  have slice : text.slice t.span = spelling := spelled.slice start
  have other : kind ≠ .call ∧ kind.isBraced = false ∧ kind ≠ .returnStatement := by
    cases kind <;> first | exact False.elim spells | exact ⟨nofun, rfl, nofun⟩
  obtain ⟨call, braced, returns⟩ := other
  refine ⟨fun _ => holds, fun _ => holds.lt, fun same => absurd same call,
    fun same => absurd same (Bool.eq_false_iff.mp braced), fun same => absurd same returns,
    fun _ => rfl, ?_, ?_⟩
  · rintro raw same
    cases same
    obtain ⟨quote, rfl⟩ := spelled.string spells
    exact ⟨quote, slice⟩
  · rintro name same
    cases same
    obtain ⟨keyword, word⟩ := spells
    exact slice ▸ spelled.name word

theorem Token.Spelled.returns {text before : Text} {word : Token} {stop : Nat}
    {children : List Node} (spelled : word.Spelled returnKeyword)
    (start : (⟨0, text⟩ : Place).Leads before word.start)
    (holds : text.Holds ⟨word.start.offset, stop⟩)
    (after : ∀ n ∈ children, word.stop.offset ≤ n.span.start) :
    (Node.mk .returnStatement ⟨word.start.offset, stop⟩ children).Stands text := by
  refine ⟨fun _ => holds, fun _ => holds.lt, nofun, nofun, fun _ => ?_, nofun, nofun, nofun⟩
  refine ⟨before, word.stop.rest, ?_, ?_, fun n member => ?_⟩
  · rw [← spelled.leads.rest]
    exact start.rest
  · rw [← Nat.zero_add (Text.byteLength _)]
    exact start.offset
  · have low := after n member
    rw [spelled.leads.offset] at low
    exact low

theorem Nested.concise {text : Text} {lo hi : Nat} {value : Node}
    (nested : Nested text lo [value] hi) : Nested text lo
      [.mk .functionBody value.span [.mk .expressionStatement value.span [value]]] hi := by
  cases nested with
  | node low stands inside rest =>
      have alone : Nested text value.span.start [value] value.span.stop :=
        .node (Nat.le_refl _) stands inside (.nil (Nat.le_refl _))
      have statement : Nested text value.span.start
          [.mk .expressionStatement value.span [value]] value.span.stop :=
        .node (Nat.le_refl _) (Node.stands_of_mayBeEmpty rfl stands.solid) alone
          (.nil (Nat.le_refl _))
      exact .node low (Node.stands_of_mayBeEmpty rfl stands.solid) statement rest

theorem Laid.nested {text : Text} {b : Bool} {ts : List Token} {ns : List Node}
    (laid : Laid b ts ns) {before : Text} {p q : Place}
    (located : (⟨0, text⟩ : Place).Leads before p) (runs : Runs p ts q) :
    Nested text p.offset ns q.offset := by
  induction laid generalizing before p q with
  | nil =>
      cases runs
      exact .nil (Nat.le_refl _)
  | gap _ _ ih =>
      cases runs with
      | cons leads spelled rest =>
          have whole := leads.trans spelled.leads
          exact (ih (located.trans whole) rest).widen whole.le
  | @leaf _ kind t _ _ spells _ ih =>
      cases runs with
      | cons leads spelled rest =>
          have whole := leads.trans spelled.leads
          exact .node leads.le (spelled.stands (located.trans leads) spells)
            (.nil spelled.leads.le) (ih (located.trans whole) rest)
  | elision _ ih =>
      obtain ⟨gap, leads, runs⟩ := runs.restart
      exact .node leads.le (Node.stands_of_mayBeEmpty rfl fun lt => absurd lt (Nat.lt_irrefl _))
        (.nil (Nat.le_refl _))
        (ih (located.trans leads) runs)
  | @node _ kind inner ts children ns composite some _ _ ih ih' =>
      obtain ⟨start, stop, above, upto, extent, holds, low, leads, parts, leads', later⟩ :=
        runs.stretch located some
      rw [extent]
      exact .node low (Node.stands_of_isComposite composite holds) (ih leads parts)
        (ih' leads' later)
  | @call _ front ts close children ns _ _ _ ih ih' =>
      obtain ⟨start, stop, above, upto, extent, holds, low, leads, all, leads', later⟩ :=
        runs.stretch located (by simp)
      obtain ⟨mid, parts, closing⟩ := all.split
      have nested := ih leads parts
      have closes := closing.lt
      rw [extent]
      have stands : (Node.mk .call ⟨start.offset, stop.offset⟩ children).Stands text := by
        apply Node.stands_of_call holds
        intro n member
        exact Nat.lt_of_le_of_lt (nested.bounds n member).2.2 closes
      exact .node low stands (nested.reach (Nat.le_of_lt closes)) (ih' leads' later)
  | @returning _ word inner ts children ns isWord _ _ ih ih' =>
      obtain ⟨m, first, later⟩ := runs.split
      have holds := first.holds located
      rw [first.extent]
      cases first with
      | @cons _ _ _ _ gap spelling leads spelled rest =>
          obtain rfl := spelling_of_return (spelled.word isWord)
          have start := located.trans leads
          have whole := start.trans spelled.leads
          obtain ⟨passed, across⟩ := rest.leads
          have nested := ih whole rest
          have stands : (Node.mk .returnStatement ⟨word.start.offset, m.offset⟩ children).Stands
              text := by
            apply spelled.returns start holds
            intro n member
            exact (nested.bounds n member).1
          exact .node leads.le stands (nested.widen spelled.leads.le)
            (ih' (whole.trans across) later)
  | @braced _ kind front middle ts opening close heads body ns isBraced _ lbrace _ rbrace _
      ih ih' ih'' =>
      obtain ⟨start, stop, above, upto, extent, holds, low, leads, all, leads', later⟩ :=
        runs.stretch located (by simp)
      rw [List.append_assoc] at all
      obtain ⟨mid, parts, block⟩ := all.split
      obtain ⟨passed, across⟩ := parts.leads
      obtain ⟨encloses, nested⟩ := block.functionBody (leads.trans across) lbrace rbrace ih'
      rw [extent]
      exact .node low (Node.stands_of_isBraced isBraced holds encloses)
        ((ih leads parts).append nested) (ih'' leads' later)
  | @concise _ async front inner ts heads ns value _ some _ _ ih ih' ih'' =>
      obtain ⟨start, stop, above, upto, extent, holds, low, leads, all, leads', later⟩ :=
        runs.stretch located (by simp [some])
      obtain ⟨mid, parts, expression⟩ := all.split
      obtain ⟨passed, across⟩ := parts.leads
      have body := (ih' (leads.trans across) expression).concise
      rw [extent]
      exact .node low (Node.stands_of_holds holds nofun rfl nofun rfl)
        ((ih leads parts).append body) (ih'' leads' later)

/-- The tree of a program is nested in its text. -/
theorem readProgram_nested {mode : Mode} {text : Text} {root : Node}
    (parsed : readProgram mode text = .ok root) :
    ∃ body, root = .mk .program ⟨0, text.byteLength⟩ body ∧
      Nested text 0 body text.byteLength := by
  obtain ⟨body, c, rfl, ⟨ts, passes, laid⟩, -⟩ := readProgram_laid parsed
  obtain ⟨q, runs, -⟩ := passes.runs (Token.first_follows mode text)
  obtain ⟨passed, leads⟩ := runs.leads
  have inside : q.offset ≤ text.byteLength := by
    have whole : text = passed ++ q.rest := leads.rest
    rw [leads.offset, whole, Text.byteLength_append]
    dsimp only
    omega
  exact ⟨body, rfl, (laid.nested (.refl _) runs).reach inside⟩

end AmdUnwrap
