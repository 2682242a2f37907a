import AmdUnwrap.Proofs.Syntax.Passage

namespace AmdUnwrap

/-- Whatever the reading accepts is one node, and it takes a token at least. -/
def Reading.IsNode (r : Reading Node) : Prop :=
  ∀ {c c' : Cursor} {n : Node}, r c = .ok (n, c') → Crosses c [n] c'

/-- The reading passes exactly the nodes that it returns. -/
def Reading.AreNodes (r : Reading (List Node)) : Prop :=
  ∀ {c c' : Cursor} {ns : List Node}, r c = .ok (ns, c') → Reads c ns c'

namespace Reading

theorem many_areNodes {item : Reading (Option Node)}
    (one : ∀ {c c' n}, item c = .ok (some n, c') → Reads c [n] c')
    (stop : ∀ {c c'}, item c = .ok (none, c') → Reads c [] c') (bound : Nat) :
    (many item bound).AreNodes := by
  induction bound with
  | zero =>
      intro c c' ns h
      obtain ⟨rfl, rfl⟩ := pure_ok.mp h
      exact .stay
  | succ bound ih =>
      intro c c' ns h
      obtain ⟨o, c₁, first, h⟩ := bind_ok.mp h
      cases o with
      | none =>
          obtain ⟨rfl, rfl⟩ := pure_ok.mp h
          exact stop first
      | some n =>
          simp at h
          obtain ⟨rest, rfl, later⟩ := h
          exact (one first).trans (ih later)

theorem many_skips {item : Reading (Option Unit)}
    (each : ∀ {c c' o}, item c = .ok (o, c') → Reads c [] c') (bound : Nat) :
    ∀ {c c' units}, many item bound c = .ok (units, c') → Reads c [] c' := by
  induction bound with
  | zero =>
      intro c c' units h
      obtain ⟨rfl, rfl⟩ := pure_ok.mp h
      exact .stay
  | succ bound ih =>
      intro c c' units h
      obtain ⟨o, c₁, first, h⟩ := bind_ok.mp h
      cases o with
      | none =>
          obtain ⟨rfl, rfl⟩ := pure_ok.mp h
          exact each first
      | some u =>
          simp at h
          obtain ⟨rest, rfl, later⟩ := h
          exact (each first).trans (ih later)

theorem iterate_keeps {α : Type} {step : α → Reading (Option α)} {P : α → Cursor → Prop}
    (next : ∀ {a b c c'}, P a c → step a c = .ok (some b, c') → P b c')
    (stop : ∀ {a c c'}, P a c → step a c = .ok (none, c') → P a c') (bound : Nat) :
    ∀ {a b c c'}, P a c → iterate step bound a c = .ok (b, c') → P b c' := by
  induction bound with
  | zero =>
      intro a b c c' holds h
      obtain ⟨rfl, rfl⟩ := pure_ok.mp h
      exact holds
  | succ bound ih =>
      intro a b c c' holds h
      obtain ⟨o, c₁, first, h⟩ := bind_ok.mp h
      cases o with
      | none =>
          obtain ⟨rfl, rfl⟩ := pure_ok.mp h
          exact stop holds first
      | some a₁ => exact ih (next holds first) h

theorem separated_closes {item : Reading Node} (one : item.IsNode) (close : Punct) (bound : Nat) :
    ∀ {c c' ns trailing}, separated item close bound c = .ok ((ns, trailing), c') →
      ∃ c₁, Reads c ns c₁ ∧ c₁.token.isPunct close = true ∧ c' = c₁.next := by
  induction bound with
  | zero =>
      intro c c' ns trailing h
      simp [separated] at h
  | succ bound ih =>
      intro c c' ns trailing h
      simp [separated] at h
      rcases h with ⟨closed, ⟨rfl, rfl⟩, rfl⟩ | ⟨-, n, c₁, first, h⟩
      · exact ⟨c, .stay, closed, rfl⟩
      rcases h with ⟨comma, h⟩ | ⟨-, ⟨rfl, rfl⟩, closed, rfl⟩
      · have passed := (one first).reads.trans (Crosses.skip_punct comma).reads
        rcases h with ⟨closed, ⟨rfl, rfl⟩, rfl⟩ | ⟨-, rest, ⟨⟨rfl, -⟩, later⟩ | ⟨⟨rfl, -⟩, later⟩⟩
        · exact ⟨_, passed, closed, rfl⟩
        all_goals
          obtain ⟨c₂, inner, closed, rfl⟩ := ih later
          exact ⟨c₂, passed.trans inner, closed, rfl⟩
      · exact ⟨c₁, (one first).reads, closed, rfl⟩

theorem separated_nodes {item : Reading Node} (one : item.IsNode) (close : Punct) (bound : Nat)
    {c c' : Cursor} {ns : List Node} {trailing : Bool}
    (h : separated item close bound c = .ok ((ns, trailing), c')) : Reads c ns c' := by
  obtain ⟨c₁, reads, closed, rfl⟩ := separated_closes one close bound h
  exact reads.past (Crosses.skip_punct closed).reads

theorem accept_skips {sign : Punct} {c c' : Cursor} {b : Bool}
    (h : accept sign c = .ok (b, c')) : Reads c [] c' := by
  rw [← bind_pure (accept sign), accept_bind] at h
  split at h
  next seen =>
    obtain ⟨-, rfl⟩ := pure_ok.mp h
    exact (Crosses.skip_punct seen).reads
  · obtain ⟨-, rfl⟩ := pure_ok.mp h
    exact .stay

theorem acceptWord_skips {keyword : Keyword} {c c' : Cursor} {b : Bool}
    (h : acceptWord keyword c = .ok (b, c')) : Reads c [] c' := by
  rw [← bind_pure (acceptWord keyword), acceptWord_bind] at h
  split at h
  next seen =>
    obtain ⟨-, rfl⟩ := pure_ok.mp h
    exact (Crosses.skip_word seen).reads
  · obtain ⟨-, rfl⟩ := pure_ok.mp h
    exact .stay

theorem semicolon_skips {c c' : Cursor} {u : Unit} (h : semicolon c = .ok (u, c')) :
    Reads c [] c' := by
  unfold semicolon at h
  rw [current_bind] at h
  generalize kind : c.token.kind = k at h
  split at h
  next =>
    simp at h
    rw [h]
    exact (Crosses.skip kind rfl).reads
  all_goals
    simp at h
    simp [h, Reads.stay]

end Reading
end AmdUnwrap
