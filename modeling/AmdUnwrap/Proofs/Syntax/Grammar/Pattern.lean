import AmdUnwrap.Proofs.Syntax.Grammar.Basic
import AmdUnwrap.Syntax.Grammar.Pattern

namespace AmdUnwrap.Grammar
open Reading

variable {d : Descent}

theorem withDefault_isNode (sound : d.Sound) (s : Setting) {pattern : Reading Node}
    (one : pattern.IsNode) : (withDefault d s pattern).IsNode := by
  intro c c' n h
  simp [withDefault] at h
  obtain ⟨target, c₁, first, ⟨assign, value, later, rfl⟩ | ⟨-, rfl, rfl⟩⟩ := h
  · exact ((one first).trans
      ((Crosses.skip_punct assign).reads.trans (sound _ _ later).reads)).finish rfl
  · exact one first

theorem restElement_isNode (close : Punct) {pattern : Reading Node} (one : pattern.IsNode) :
    (restElement close pattern).IsNode := by
  intro c c' n h
  simp only [restElement, Bool.not_eq_eq_eq_not, Bool.not_true, here_bind, expect_bind, ite_ok,
    bind_ok, sees_bind, ite_run, refuse_bind, refuse_ok, and_false, Bool.not_eq_false, finish_ok,
    false_or, Bool.not_eq_true, or_false] at h
  obtain ⟨ellipsis, target, c₁, inner, -, rfl, rfl⟩ := h
  exact ((Crosses.skip_punct ellipsis).trans (one inner).reads).finish rfl

theorem arrayItem_isNode (sound : d.Sound) (s : Setting) : (arrayItem d s).IsNode := by
  intro c c' n h
  simp [arrayItem] at h
  rcases h with ⟨-, h⟩ | ⟨-, h⟩
  · exact restElement_isNode .rbracket (sound _ _) h
  · exact withDefault_isNode sound s (sound _ _) h

theorem objectItem_isNode (sound : d.Sound) (s : Setting) : (objectItem d s).IsNode := by
  intro c c' n h
  simp only [objectItem, here_bind, sees_bind, ite_run] at h
  split at h
  · exact restElement_isNode .rbrace (bindingName_isNode s) (by simpa using h)
  simp only [current_bind, ahead_bind, ite_run] at h
  split at h
  · simp at h
    obtain ⟨value, inner, rfl⟩ := h
    exact (withDefault_isNode sound s (bindingName_isNode s) inner).finish rfl
  · simp at h
    obtain ⟨key, c₁, first, colon, value, later, rfl⟩ := h
    exact ((propertyKey_isNode sound s first).trans ((Crosses.skip_punct colon).reads.trans
      (withDefault_isNode sound s (sound _ _) later).reads)).finish rfl

theorem pattern_isNode (sound : d.Sound) (s : Setting) : (pattern d s).IsNode := by
  intro c c' n h
  simp only [pattern, current_bind] at h
  generalize kind : c.token.kind = k at h
  split at h
  next =>
    simp only [discard_bind, move_bind, bind_ok, finish_ok] at h
    obtain ⟨⟨items, flag⟩, c₁, inner, rfl, rfl⟩ := h
    exact ((Crosses.skip kind rfl).trans
      (elements_nodes (arrayItem_isNode sound _) _ inner)).finish rfl
  next =>
    simp only [discard_bind, move_bind, bind_ok, finish_ok] at h
    obtain ⟨⟨items, flag⟩, c₁, inner, rfl, rfl⟩ := h
    exact ((Crosses.skip kind rfl).trans
      (separated_nodes (objectItem_isNode sound _) _ _ inner)).finish rfl
  · exact bindingName_isNode s h

theorem parameter_isNode (sound : d.Sound) (s : Setting) : (parameter d s).IsNode := by
  intro c c' n h
  simp only [parameter, Bool.not_eq_eq_eq_not, Bool.not_true, here_bind, accept_bind, ↓reduceIte,
    Bool.false_eq_true, ite_ok, bind_ok, sees_bind, ite_run, refuse_bind, refuse_ok, and_false,
    Bool.not_eq_false, finish_ok, false_or, Bool.not_eq_true, exists_eq_right_right'] at h
  rcases h with ⟨ellipsis, target, c₁, inner, -, rfl, rfl⟩ | ⟨-, target, c₁, first, h⟩
  · exact ((Crosses.skip_punct ellipsis).trans (sound _ _ inner).reads).finish rfl
  rcases h with ⟨assign, value, later, rfl⟩ | ⟨-, rfl, rfl⟩
  · exact ((sound _ _ first).trans
      ((Crosses.skip_punct assign).reads.trans (sound _ _ later).reads)).finish rfl
  · exact (sound _ _ first).finish rfl

theorem parameterList_isNode (sound : d.Sound) (s : Setting) : (parameterList d s).IsNode := by
  intro c c' n h
  simp only [parameterList, here_bind, expect_bind, ite_ok, refuse_ok, and_false, or_false,
    bind_ok, finish_ok] at h
  obtain ⟨opening, ⟨items, flag⟩, c₁, inner, rfl, rfl⟩ := h
  exact ((Crosses.skip_punct opening).trans
    (separated_nodes (parameter_isNode sound _) _ _ inner)).finish rfl

theorem loneParameter_isNode (s : Setting) : (loneParameter s).IsNode := by
  intro c c' n h
  simp [loneParameter] at h
  obtain ⟨name, inner, rfl⟩ := h
  exact ((bindingName_isNode s inner).finish rfl).finish rfl

end AmdUnwrap.Grammar
