import AmdUnwrap.Proofs.Syntax.Grammar.Function
import AmdUnwrap.Syntax.Grammar.Literal

namespace AmdUnwrap.Grammar
open Reading

variable {d : Descent}

/-- Between two cursors inside of a template lie these parts of it. -/
def Spreads (c : Cursor) (parts : List Node) (c' : Cursor) : Prop :=
  ∃ ts, ts ≠ [] ∧ Passes c ts c' ∧ Laid true ts parts

theorem templateStretch_spreads {tagged closed : Bool} {c c' : Cursor}
    (h : templateStretch tagged c = .ok (closed, c')) : Spreads c [] c' := by
  simp only [templateStretch, current_bind] at h
  generalize kind : c.token.kind = k at h
  split at h
  next ends wellEscaped =>
    simp [ite_ok] at h
    obtain ⟨-, -, rfl⟩ := h
    exact ⟨[c.token], by simp, .move (kind ▸ rfl) .stay, .gap (kind ▸ rfl) .nil⟩
  · simp at h

theorem templateStep_spreads (sound : d.Sound) (s : Setting) {tagged : Bool}
    {state next : List Node × Bool} {c c₁ c₂ : Cursor} (before : Spreads c state.1 c₁)
    (h : templateStep d s tagged state c₁ = .ok (some next, c₂)) : Spreads c next.1 c₂ := by
  obtain ⟨parts, closed⟩ := state
  cases closed with
  | true => simp [templateStep] at h
  | false =>
      simp [templateStep, ite_ok] at h
      obtain ⟨part, c₃, first, brace, rest⟩ := h
      have again : c₃.token.Rereads c₃.token.asTemplate := .inr ⟨brace, rfl⟩
      have step {ends : Bool} (h : templateStretch tagged { c₃ with token := c₃.token.asTemplate } =
          .ok (ends, c₂)) : Spreads c (parts ++ [part]) c₂ := by
        obtain ⟨ts, some, passes, laid⟩ := before
        obtain ⟨us, -, passes', laid'⟩ := sound _ _ first
        obtain ⟨vs, -, passes'', laid''⟩ := templateStretch_spreads h
        refine ⟨ts ++ (us ++ vs), by simp [some],
          passes.trans (passes'.trans (.reread again passes'')), ?_⟩
        simpa using laid.append (laid'.weaken.append laid'')
      rcases rest with ⟨rfl, stretch⟩ | ⟨rfl, stretch⟩ <;> exact step stretch

theorem templateStep_stays {s : Setting} {tagged : Bool} {state : List Node × Bool}
    {c c' : Cursor} (h : templateStep d s tagged state c = .ok (none, c')) : c' = c := by
  obtain ⟨parts, closed⟩ := state
  cases closed with
  | true => exact (pure_ok.mp h).2
  | false => simp [templateStep, ite_ok] at h

theorem template_isNode (sound : d.Sound) (s : Setting) (tagged : Bool) :
    (template d s tagged).IsNode := by
  intro c c' n h
  simp only [template, here_bind, bind_ok] at h
  obtain ⟨closed, c₁, opening, ⟨parts, ends⟩, c₂, rest, h⟩ := h
  have whole : Spreads c parts c₂ := by
    refine iterate_keeps (P := fun state c₁ => Spreads c state.1 c₁) ?_ ?_ _ ?_ rest
    · intro state next a a' before step
      exact templateStep_spreads sound s before step
    · intro state a a' before stop
      obtain rfl := templateStep_stays stop
      exact before
    · exact templateStretch_spreads opening
  simp [ite_ok] at h
  obtain ⟨-, rfl, rfl⟩ := h
  obtain ⟨ts, some, passes, laid⟩ := whole
  have node := @Laid.node false .template _ _ _ _ rfl some laid .nil
  rw [passes.extent_eq some, List.append_nil] at node
  exact ⟨ts, some, passes, node⟩

theorem element_isNode (sound : d.Sound) (s : Setting) : (element d s).IsNode := by
  intro c c' n h
  simp [element] at h
  rcases h with ⟨ellipsis, value, inner, rfl⟩ | ⟨-, h⟩
  · exact ((Crosses.skip_punct ellipsis).trans (sound _ _ inner).reads).finish rfl
  · exact sound _ _ h

theorem array_isNode (sound : d.Sound) (s : Setting) : (array d s).IsNode := by
  intro c c' n h
  simp only [array, here_bind, expect_bind, ite_ok, refuse_ok, and_false, or_false, bind_ok,
    finish_ok] at h
  obtain ⟨opening, ⟨items, trailing⟩, c₁, inner, rfl, rfl⟩ := h
  exact ((Crosses.skip_punct opening).trans
    (elements_nodes (element_isNode sound s) _ inner)).finish rfl

theorem methodProperty_crosses (sound : d.Sound) {c c₁ c₂ : Cursor} {form : Node.Form}
    {async generator : Bool} {key n : Node} (before : Crosses c [key] c₁)
    (h : methodProperty d c.token.start.offset form async generator key c₁ = .ok (n, c₂)) :
    Crosses c [n] c₂ := by
  simp only [methodProperty, bind_ok, finish_ok] at h
  obtain ⟨method, _, later, _, _, checked, rfl, rfl⟩ := h
  obtain rfl := checkAccessor_stays checked
  exact (before.trans (methodFunction_isNode sound _ _ later).reads).finish rfl

theorem shorthand_isNode (sound : d.Sound) (s : Setting) : (shorthand d s).IsNode := by
  intro c c' n h
  simp [shorthand] at h
  obtain ⟨name, c₁, first, ⟨assign, value, later, rfl⟩ | ⟨-, rfl, rfl⟩⟩ := h
  · exact ((reference_isNode s first).trans
      ((Crosses.skip_punct assign).reads.trans (sound _ _ later).reads)).finish rfl
  · exact (reference_isNode s first).finish rfl

theorem keyedProperty_isNode (sound : d.Sound) (s : Setting) : (keyedProperty d s).IsNode := by
  intro c c' n h
  simp [keyedProperty] at h
  obtain ⟨key, c₁, first, ⟨-, h⟩ | ⟨-, colon, value, later, rfl⟩⟩ := h
  · exact methodProperty_crosses sound (propertyKey_isNode sound s first) h
  · exact ((propertyKey_isNode sound s first).trans
      ((Crosses.skip_punct colon).reads.trans (sound _ _ later).reads)).finish rfl

theorem accessorProperty_crosses (sound : d.Sound) (s : Setting) (form : Node.Form)
    {c c' : Cursor} {n : Node} (word : Crosses c [] c.next)
    (h : accessorProperty d s form c = .ok (n, c')) : Crosses c [n] c' := by
  simp only [accessorProperty, here_bind, discard_bind, move_bind, bind_ok] at h
  obtain ⟨key, c₁, first, h⟩ := h
  exact methodProperty_crosses sound (word.trans (propertyKey_isNode sound s first).reads) h

theorem generatorProperty_isNode (sound : d.Sound) (s : Setting) :
    (generatorProperty d s).IsNode := by
  intro c c' n h
  simp only [generatorProperty, here_bind, bind_ok] at h
  obtain ⟨async, c₁, word, generator, c₂, star, key, c₃, first, h⟩ := h
  have before := (acceptWord_skips word).trans (accept_skips star)
  exact methodProperty_crosses sound (before.cross (propertyKey_isNode sound s first)) h

theorem property_isNode (sound : d.Sound) (s : Setting) : (property d s).IsNode := by
  intro c c' n h
  simp only [property, current_bind] at h
  generalize kind : c.token.kind = k at h
  split at h
  · exact element_isNode sound s h
  · exact generatorProperty_isNode sound s h
  · simp only [ahead_bind, ite_run] at h
    have word : Crosses c [] c.next := Crosses.skip kind rfl
    split at h
    · exact generatorProperty_isNode sound s h
    split at h
    · exact accessorProperty_crosses sound s _ word h
    split at h
    · exact accessorProperty_crosses sound s _ word h
    split at h
    · exact keyedProperty_isNode sound s h
    · exact shorthand_isNode sound s h
  · exact keyedProperty_isNode sound s h

theorem object_isNode (sound : d.Sound) (s : Setting) : (object d s).IsNode := by
  intro c c' n h
  simp only [object, here_bind, expect_bind, ite_ok, refuse_ok, and_false, or_false, bind_ok,
    finish_ok] at h
  obtain ⟨opening, ⟨items, trailing⟩, c₁, inner, rfl, rfl⟩ := h
  exact ((Crosses.skip_punct opening).trans
    (separated_nodes (property_isNode sound s) _ _ inner)).finish rfl

end AmdUnwrap.Grammar
