import AmdUnwrap.Proofs.Syntax.Repetition
import AmdUnwrap.Syntax.Grammar.Basic

namespace AmdUnwrap

def Descent.Sound (d : Descent) : Prop := ∀ (s : Setting) (goal : Goal), (d.read s goal).IsNode

namespace Grammar
open Reading

variable {d : Descent} {s : Setting} {c c' : Cursor}

theorem variableName_ok {t : Token} {name : Text} (h : variableName s t c = .ok (name, c')) :
    c' = c ∧ ∃ keyword, t.kind = .word name keyword := by
  unfold variableName at h
  generalize kind : t.kind = k at h
  split at h
  next spelled keyword =>
    simp at h
    obtain ⟨-, -, rfl, rfl⟩ := h
    exact ⟨rfl, keyword, rfl⟩
  · simp at h

theorem bindingName_isNode (s : Setting) : (bindingName s).IsNode := by
  intro c c' n h
  simp [bindingName] at h
  obtain ⟨name, c₁, named, rfl, rfl⟩ := h
  obtain ⟨rfl, keyword, kind⟩ := variableName_ok named
  exact Crosses.leaf ⟨keyword, kind⟩ (kind ▸ rfl)

theorem reference_isNode (s : Setting) : (reference s).IsNode := by
  intro c c' n h
  simp [reference] at h
  obtain ⟨name, c₁, named, rfl, rfl⟩ := h
  obtain ⟨rfl, keyword, kind⟩ := variableName_ok named
  exact Crosses.leaf ⟨keyword, kind⟩ (kind ▸ rfl)

theorem stringLiteral_isNode : stringLiteral.IsNode := by
  intro c c' n h
  unfold stringLiteral at h
  rw [current_bind] at h
  generalize kind : c.token.kind = k at h
  split at h
  next raw =>
    simp at h
    obtain ⟨rfl, rfl⟩ := h
    exact Crosses.leaf kind (kind ▸ rfl)
  · simp at h

theorem propertyKey_isNode (sound : d.Sound) (s : Setting) : (propertyKey d s).IsNode := by
  intro c c' n h
  simp only [propertyKey, current_bind] at h
  generalize kind : c.token.kind = k at h
  split at h
  next name keyword =>
    simp at h
    obtain ⟨rfl, rfl⟩ := h
    exact (Crosses.skip kind rfl).finish rfl
  · exact stringLiteral_isNode h
  next =>
    simp at h
    obtain ⟨rfl, rfl⟩ := h
    exact (Crosses.skip kind rfl).finish rfl
  next =>
    simp at h
    obtain ⟨key, c₁, inner, close, rfl, rfl⟩ := h
    exact ((Crosses.skip kind rfl).trans
      ((sound _ _ inner).reads.trans (Crosses.skip_punct close).reads)).finish rfl
  · simp at h

theorem memberKey_isNode (sound : d.Sound) (s : Setting) : (memberKey d s).IsNode := by
  intro c c' n h
  simp only [memberKey, current_bind] at h
  generalize kind : c.token.kind = k at h
  split at h
  next =>
    simp at h
    obtain ⟨rfl, rfl⟩ := h
    exact (Crosses.skip kind rfl).finish rfl
  · exact propertyKey_isNode sound s h

theorem memberName_isNode : memberName.IsNode := by
  intro c c' n h
  simp only [memberName, current_bind] at h
  generalize kind : c.token.kind = k at h
  split at h
  · simp at h
    obtain ⟨rfl, rfl⟩ := h
    exact (Crosses.skip kind rfl).finish rfl
  · simp at h
    obtain ⟨rfl, rfl⟩ := h
    exact (Crosses.skip kind rfl).finish rfl
  · simp at h

/-- A gap takes no token, so it may be put before whatever starts at a comma. -/
theorem reads_elision {ns : List Node} (comma : c.token.isPunct .comma = true)
    (reads : Reads c.next ns c') :
    Reads c (.mk .elision ⟨c.token.start.offset, c.token.start.offset⟩ [] :: ns) c' := by
  obtain ⟨ts, passes, laid⟩ := reads
  have separates := Token.separates_of_isPunct comma (b := false)
  exact ⟨c.token :: ts, .move (Token.isReal_of_separates separates) passes,
    .elision (.gap separates laid)⟩

theorem elements_nodes {item : Reading Node} (one : item.IsNode) (bound : Nat) :
    ∀ {c c' ns trailing}, elements item bound c = .ok ((ns, trailing), c') → Reads c ns c' := by
  induction bound with
  | zero =>
      intro c c' ns trailing h
      simp [elements] at h
  | succ bound ih =>
      intro c c' ns trailing h
      rw [elements, accept_bind] at h
      split at h
      next closed =>
        simp at h
        obtain ⟨⟨rfl, -⟩, rfl⟩ := h
        exact (Crosses.skip_punct closed).reads
      simp only [Bool.false_eq_true, if_false, sees_bind, ite_run] at h
      split at h
      next comma =>
        simp only [here_bind, discard_bind, move_bind, bind_ok, pure_ok, Prod.mk.injEq] at h
        obtain ⟨⟨rest, flag⟩, c₁, later, ⟨rfl, -⟩, rfl⟩ := h
        exact reads_elision comma (ih later)
      simp only [bind_ok, accept_bind] at h
      obtain ⟨n, c₁, first, h⟩ := h
      split at h
      next closed =>
        simp at h
        obtain ⟨⟨rfl, -⟩, rfl⟩ := h
        exact (one first).reads.trans (Crosses.skip_punct closed).reads
      simp only [Bool.false_eq_true, if_false, expect_bind, accept_bind] at h
      split at h
      next comma =>
        have passed := (one first).reads.trans (Crosses.skip_punct comma).reads
        split at h
        next closed =>
          simp at h
          obtain ⟨⟨rfl, -⟩, rfl⟩ := h
          exact passed.trans (Crosses.skip_punct closed).reads
        simp only [bind_ok, pure_ok, Prod.mk.injEq] at h
        obtain ⟨⟨rest, flag⟩, c₂, later, ⟨rfl, -⟩, rfl⟩ := h
        exact passed.trans (ih later)
      · simp at h

end Grammar
end AmdUnwrap
