import AmdUnwrap.Proofs.Cut
import AmdUnwrap.Proofs.Lineage

/-!
Where the nodes of a program start and stop: where its tokens do. So no span of a node cuts a
character in two, an empty one included, and no node parts what stands between two tokens.
-/

namespace AmdUnwrap

/-- Both ends of the span of the node, and of each below it, have the property. -/
inductive Node.Edged (P : Nat → Prop) : Node → Prop where
  | mk {kind : Node.Kind} {start stop : Nat} {children : List Node} : P start → P stop →
      (∀ n ∈ children, n.Edged P) → Edged P (.mk kind ⟨start, stop⟩ children)

def EdgedTokens (P : Nat → Prop) (tokens : List Token) : Prop :=
  ∀ t ∈ tokens, P t.start.offset ∧ P t.stop.offset

section

variable {P : Nat → Prop} {n : Node}

theorem Node.Edged.span (edged : n.Edged P) : P n.span.start ∧ P n.span.stop := by
  cases edged with
  | mk start stop _ => exact ⟨start, stop⟩

theorem Node.Edged.reaches {root : Node} {path : List Node} (edged : root.Edged P)
    (reaches : Node.Reaches root path n) : n.Edged P := by
  induction reaches with
  | top => exact edged
  | child _ member ih =>
      cases ih with
      | mk _ _ children => exact children _ member

theorem edgedTokens_cons {t : Token} {ts : List Token} :
    EdgedTokens P (t :: ts) ↔ (P t.start.offset ∧ P t.stop.offset) ∧ EdgedTokens P ts :=
  List.forall_mem_cons

theorem edgedTokens_append {ts us : List Token} :
    EdgedTokens P (ts ++ us) ↔ EdgedTokens P ts ∧ EdgedTokens P us :=
  List.forall_mem_append

theorem edged_extent {kind : Node.Kind} {tokens : List Token} {children : List Node}
    (each : EdgedTokens P tokens) (some : tokens ≠ []) (inner : ∀ n ∈ children, n.Edged P) :
    Node.Edged P (.mk kind (Token.extent tokens) children) := by
  have first := (each _ (List.head_mem some)).1
  have last := (each _ (List.getLast_mem some)).2
  unfold Token.extent
  rw [List.head?_eq_some_head some, List.getLast?_eq_some_getLast some]
  exact .mk first last inner

theorem Laid.edged {b : Bool} {ts : List Token} {ns : List Node} (laid : Laid b ts ns)
    (each : EdgedTokens P ts) : ∀ n ∈ ns, n.Edged P := by
  induction laid with
  | nil => exact nofun
  | gap _ _ ih => exact ih (edgedTokens_cons.mp each).2
  | leaf _ _ ih =>
      obtain ⟨⟨start, stop⟩, rest⟩ := edgedTokens_cons.mp each
      exact List.forall_mem_cons.mpr ⟨.mk start stop nofun, ih rest⟩
  | elision _ ih =>
      obtain ⟨⟨start, -⟩, -⟩ := edgedTokens_cons.mp each
      exact List.forall_mem_cons.mpr ⟨.mk start start nofun, ih each⟩
  | node _ some _ _ ih ih' =>
      obtain ⟨inner, rest⟩ := edgedTokens_append.mp each
      exact List.forall_mem_cons.mpr ⟨edged_extent inner some (ih inner), ih' rest⟩
  | call _ _ _ ih ih' =>
      obtain ⟨inner, rest⟩ := edgedTokens_append.mp each
      have front := (edgedTokens_append.mp inner).1
      exact List.forall_mem_cons.mpr ⟨edged_extent inner (by simp) (ih front), ih' rest⟩
  | returning _ _ _ ih ih' =>
      obtain ⟨inner, rest⟩ := edgedTokens_append.mp each
      have front := (edgedTokens_cons.mp inner).2
      exact List.forall_mem_cons.mpr ⟨edged_extent inner (by simp) (ih front), ih' rest⟩
  | braced _ _ _ _ _ _ ih ih' ih'' =>
      obtain ⟨inner, rest⟩ := edgedTokens_append.mp each
      obtain ⟨block, close⟩ := edgedTokens_append.mp inner
      obtain ⟨front, block⟩ := edgedTokens_append.mp block
      obtain ⟨⟨start, -⟩, middle⟩ := edgedTokens_cons.mp block
      have stop := (edgedTokens_cons.mp close).1.2
      rw [List.forall_mem_cons]
      refine ⟨edged_extent inner (by simp) ?_, ih'' rest⟩
      rw [List.forall_mem_append]
      refine ⟨ih front, fun body member => ?_⟩
      rw [List.mem_singleton.mp member]
      exact .mk start stop (ih' middle)
  | @concise _ _ _ _ _ _ _ value _ some _ _ ih ih' ih'' =>
      obtain ⟨parts, rest⟩ := edgedTokens_append.mp each
      obtain ⟨front, inner⟩ := edgedTokens_append.mp parts
      have edged := ih' inner value (List.mem_singleton_self value)
      obtain ⟨start, stop⟩ := edged.span
      have statement : Node.Edged P (.mk .expressionStatement value.span [value]) :=
        .mk start stop fun n member => List.mem_singleton.mp member ▸ edged
      rw [List.forall_mem_cons]
      refine ⟨edged_extent parts (by simp [some]) ?_, ih'' rest⟩
      rw [List.forall_mem_append]
      refine ⟨ih front, fun body member => ?_⟩
      rw [List.mem_singleton.mp member]
      exact .mk start stop fun n member => List.mem_singleton.mp member ▸ statement

theorem readProgram_edged {mode : Mode} {text : Text} {root : Node}
    (parsed : readProgram mode text = .ok root) : ∃ ts q, Runs ⟨0, text⟩ ts q ∧
      ∀ P : Nat → Prop, P 0 → P text.byteLength → EdgedTokens P ts → root.Edged P := by
  obtain ⟨body, c, rfl, ⟨ts, passes, laid⟩, -⟩ := readProgram_laid parsed
  obtain ⟨q, runs, -⟩ := passes.runs (Token.first_follows mode text)
  exact ⟨ts, q, runs, fun P start stop each => .mk start stop (laid.edged each)⟩

end

/-- The offset is where a character of the text starts, or where the text stops. -/
def Text.Boundary (text : Text) (offset : Nat) : Prop :=
  ∃ before after, text = before ++ after ∧ offset = before.byteLength

namespace Text

theorem boundary_zero (text : Text) : text.Boundary 0 := ⟨[], text, rfl, rfl⟩

theorem boundary_byteLength (text : Text) : text.Boundary text.byteLength :=
  ⟨text, [], (List.append_nil text).symm, rfl⟩

theorem Names.boundaries {text : Text} {span : Span} (names : text.Names span) :
    text.Boundary span.start ∧ text.Boundary span.stop := by
  obtain ⟨before, part, after, rfl, rfl⟩ := names
  refine ⟨⟨before, _, rfl, rfl⟩, ⟨before ++ part, after, ?_, ?_⟩⟩
  · rw [List.append_assoc]
  · rw [byteLength_append]

theorem Names.le {text : Text} {span : Span} (names : text.Names span) :
    span.start ≤ span.stop := by
  obtain ⟨before, part, after, -, rfl⟩ := names
  exact Nat.le_add_right _ _

theorem names_of_boundaries {text : Text} {span : Span} (start : text.Boundary span.start)
    (stop : text.Boundary span.stop) (le : span.start ≤ span.stop) : text.Names span := by
  obtain ⟨first, last⟩ := span
  obtain ⟨before, rest, rfl, rfl⟩ := start
  obtain ⟨upto, after, same, rfl⟩ := stop
  obtain ⟨part, rfl, rfl⟩ := part_rest same le
  exact ⟨before, part, after, rfl, by rw [byteLength_append]⟩

end Text

theorem Runs.boundaries {text before : Text} {p q : Place} {ts : List Token}
    (located : (⟨0, text⟩ : Place).Leads before p) (runs : Runs p ts q) :
    EdgedTokens text.Boundary ts := by
  have boundary {passed : Text} {p : Place} (leads : (⟨0, text⟩ : Place).Leads passed p) :
      text.Boundary p.offset :=
    ⟨passed, p.rest, leads.rest, leads.offset.trans (Nat.zero_add _)⟩
  induction runs generalizing before with
  | nil => exact nofun
  | cons leads spelled _ ih =>
      have start := located.trans leads
      have stop := start.trans spelled.leads
      exact edgedTokens_cons.mpr ⟨⟨boundary start, boundary stop⟩, ih stop⟩

theorem Runs.ordered {p q : Place} {ts : List Token} (runs : Runs p ts q) :
    ∀ t ∈ ts, t.start.offset ≤ t.stop.offset := by
  induction runs with
  | nil => exact nofun
  | cons _ spelled _ ih => exact List.forall_mem_cons.mpr ⟨spelled.leads.le, ih⟩

theorem readProgram_boundaries {mode : Mode} {text : Text} {root : Node}
    (parsed : readProgram mode text = .ok root) : root.Edged text.Boundary := by
  obtain ⟨ts, q, runs, edged⟩ := readProgram_edged parsed
  exact edged text.Boundary text.boundary_zero text.boundary_byteLength
    (runs.boundaries (.refl _))

theorem Node.Reaches.names {root n : Node} {path : List Node} {mode : Mode} {text : Text}
    (reaches : Node.Reaches root path n) (parsed : readProgram mode text = .ok root) :
    text.Names n.span := by
  obtain ⟨start, stop⟩ := ((readProgram_boundaries parsed).reaches reaches).span
  exact Text.names_of_boundaries start stop (reaches.placed parsed).2.le

end AmdUnwrap
