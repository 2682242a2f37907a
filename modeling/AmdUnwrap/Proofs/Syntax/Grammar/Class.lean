import AmdUnwrap.Proofs.Syntax.Grammar.Function
import AmdUnwrap.Syntax.Grammar.Class

namespace AmdUnwrap.Grammar
open Reading

variable {d : Descent}

theorem modifier_skips {keyword : Keyword} {applies : Token → Bool} {c c' : Cursor} {b : Bool}
    (h : modifier keyword applies c = .ok (b, c')) : Reads c [] c' := by
  simp only [modifier, current_bind, ahead_bind, ite_run] at h
  split at h
  next seen =>
    simp only [discard_bind, move_bind, pure_ok] at h
    obtain ⟨-, rfl⟩ := h
    have word : c.token.isWord keyword = true := by
      rw [Bool.and_eq_true] at seen
      exact seen.1
    exact (Crosses.skip_word word).reads
  · obtain ⟨-, rfl⟩ := pure_ok.mp h
    exact .stay

theorem accessorForm_skips {c c' : Cursor} {form : Node.Form}
    (h : accessorForm c = .ok (form, c')) : Reads c [] c' := by
  simp only [accessorForm, bind_ok, ite_run, ite_ok, pure_ok] at h
  obtain ⟨b, c₁, getter, ⟨-, -, rfl⟩ | ⟨-, b', c₂, setter, ⟨-, -, rfl⟩ | ⟨-, -, rfl⟩⟩⟩ := h
  · exact modifier_skips getter
  · exact (modifier_skips getter).trans (modifier_skips setter)
  · exact (modifier_skips getter).trans (modifier_skips setter)

theorem fieldRest_crosses (sound : d.Sound) {c c₁ c₂ : Cursor} {static : Bool} {key n : Node}
    (before : Crosses c [key] c₁)
    (h : fieldRest d c.token.start.offset static key c₁ = .ok (n, c₂)) : Crosses c [n] c₂ := by
  simp only [fieldRest, accept_bind, if_true, Bool.false_eq_true, if_false, bind_ok, ite_ok,
    finish_ok] at h
  rcases h with ⟨assign, value, _, inner, _, _, stop, rfl, rfl⟩ | ⟨-, _, _, stop, rfl, rfl⟩
  · exact (before.trans ((Crosses.skip_punct assign).reads.trans
      ((sound _ _ inner).reads.trans (semicolon_skips stop)))).finish rfl
  · exact (before.trans (semicolon_skips stop)).finish rfl

theorem memberRest_crosses (sound : d.Sound) (s : Setting) {c c₁ c₂ : Cursor}
    {static async generator : Bool} {form : Node.Form} {n : Node} (before : Reads c [] c₁)
    (h : (do
      let key ← memberKey d s
      if async || generator || form != Node.Form.value || (← sees .lparen) then
        let method ← methodFunction d async generator
        checkAccessor form method
        let form := if form == Node.Form.value then Node.Form.method else form
        finish c.token.start.offset (.method static form) [key, method]
      else fieldRest d c.token.start.offset static key) c₁ = .ok (n, c₂)) :
    Crosses c [n] c₂ := by
  simp only [bind_ok, sees_bind, ite_run, ite_ok, finish_ok] at h
  obtain ⟨key, _, first, ⟨-, method, _, later, _, _, checked, rfl, rfl⟩ | ⟨-, h⟩⟩ := h
  · obtain rfl := checkAccessor_stays checked
    exact (before.cross ((memberKey_isNode sound s first).trans
      (methodFunction_isNode sound _ _ later).reads)).finish rfl
  · exact fieldRest_crosses sound (before.cross (memberKey_isNode sound s first)) h

theorem namedMember_crosses (sound : d.Sound) (s : Setting) {c c₁ c₂ : Cursor} {static : Bool}
    {n : Node} (before : Reads c [] c₁)
    (h : namedMember d s c.token.start.offset static c₁ = .ok (n, c₂)) : Crosses c [n] c₂ := by
  rw [namedMember, bind_ok] at h
  obtain ⟨async, a₁, modified, h⟩ := h
  rw [bind_ok] at h
  obtain ⟨generator, a₂, star, h⟩ := h
  have flags := before.trans ((modifier_skips modified).trans (accept_skips star))
  rw [ite_run] at h
  split at h
  · exact memberRest_crosses sound s flags h
  · rw [bind_ok] at h
    obtain ⟨form, a₃, named, h⟩ := h
    exact memberRest_crosses sound s (flags.trans (accessorForm_skips named)) h

theorem staticBlock_crosses (sound : d.Sound) {c c₁ c₂ : Cursor} {n : Node}
    (before : Reads c [] c₁) (h : staticBlock d c.token.start.offset c₁ = .ok (n, c₂)) :
    Crosses c [n] c₂ := by
  simp [staticBlock] at h
  obtain ⟨opening, body, c₃, inner, close, rfl, rfl⟩ := h
  exact (before.cross ((Crosses.skip_punct opening).trans
    ((statements_areNodes sound _ inner).past (Crosses.skip_punct close).reads))).finish rfl

theorem classMember_isNode (sound : d.Sound) (s : Setting) : (classMember d s).IsNode := by
  intro c c' n h
  simp only [classMember, here_bind, bind_ok, sees_bind, ite_run, ite_ok] at h
  obtain ⟨static, c₁, modified, ⟨-, h⟩ | ⟨-, h⟩⟩ := h
  · exact staticBlock_crosses sound (modifier_skips modified) h
  · exact namedMember_crosses sound s (modifier_skips modified) h

theorem classBody_isNode (sound : d.Sound) (s : Setting) : (classBody d s).IsNode := by
  intro c c' n h
  simp only [classBody, here_bind, expect_bind, ite_ok, refuse_ok, and_false, or_false, bind_ok,
    finish_ok] at h
  obtain ⟨opening, members, c₁, inner, close, rfl, rfl⟩ := h
  have skips {a a' : Cursor} {o : Option Unit} (h : (do
      if ← accept .semicolon then return some () else return none) a = .ok (o, a')) :
      Reads a [] a' := by
    rw [bind_ok] at h
    obtain ⟨b, a₁, semicolon, h⟩ := h
    rw [ite_run, ite_ok, pure_ok, pure_ok] at h
    obtain ⟨-, -, rfl⟩ | ⟨-, -, rfl⟩ := h <;> exact accept_skips semicolon
  have reads : Reads c.next members c₁ := by
    refine many_areNodes ?_ ?_ _ inner
    · intro a a' m h
      simp [ite_ok] at h
      obtain ⟨_, a₁, gaps, -, one⟩ := h
      exact (many_skips skips _ gaps).trans (classMember_isNode sound s one).reads
    · intro a a' h
      simp [ite_ok] at h
      obtain ⟨⟨_, gaps⟩, -⟩ := h
      exact many_skips skips _ gaps
  have inBraces := (Crosses.skip_punct opening).trans (reads.past (Crosses.skip_punct close).reads)
  exact inBraces.finish rfl

theorem classRest_crosses (sound : d.Sound) (s : Setting) {c c₁ c₂ : Cursor} {name : List Node}
    {n : Node} (before : Crosses c name c₁)
    (h : (do
      let parent ←
        if ← acceptWord .extendsWord then pure [← d.read s .leftHand] else pure []
      let body ← classBody d s
      finish c.token.start.offset .classDefinition (name ++ parent ++ [body])) c₁ = .ok (n, c₂)) :
    Crosses c [n] c₂ := by
  rw [acceptWord_bind] at h
  split at h
  next extending =>
    simp at h
    obtain ⟨parent, a₁, first, body, later, rfl⟩ := h
    have passed := before.trans ((Crosses.skip_word extending).reads.trans (sound _ _ first).reads)
    have whole := passed.trans (classBody_isNode sound s later).reads
    exact Crosses.finish (by simpa using whole) rfl
  · simp at h
    obtain ⟨body, later, rfl⟩ := h
    exact (before.trans (classBody_isNode sound s later).reads).finish rfl

theorem classDefinition_isNode (sound : d.Sound) (s : Setting) (nameless : Bool) :
    (classDefinition d s nameless).IsNode := by
  intro c c' n h
  rw [classDefinition, here_bind, expectWord_bind] at h
  split at h
  next word =>
    have opening := Crosses.skip_word word
    simp only [current_bind, ite_run] at h
    split at h
    · exact classRest_crosses sound s opening h
    · rw [bind_ok] at h
      obtain ⟨name, c₁, named, h⟩ := h
      exact classRest_crosses sound s (opening.trans (bindingName_isNode s named).reads) h
  · simp at h

end AmdUnwrap.Grammar
