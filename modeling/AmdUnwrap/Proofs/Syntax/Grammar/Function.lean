import AmdUnwrap.Proofs.Syntax.Grammar.Pattern
import AmdUnwrap.Syntax.Grammar.Function

namespace AmdUnwrap

def Encloses (c : Cursor) (n : Node) (c' : Cursor) : Prop :=
  ∃ opening middle close body,
    opening.isPunct .lbrace = true ∧ close.isPunct .rbrace = true ∧
      Passes c (opening :: middle ++ [close]) c' ∧ Laid false middle body ∧
      n = .mk .functionBody ⟨opening.start.offset, close.stop.offset⟩ body

theorem Reads.braced {c c₁ c₂ : Cursor} {kind : Node.Kind} {heads : List Node} {body : Node}
    (before : Reads c heads c₁) (encloses : Encloses c₁ body c₂) (braced : kind.isBraced = true) :
    Crosses c [.mk kind ⟨c.token.start.offset, c₂.last⟩ (heads ++ [body])] c₂ := by
  obtain ⟨front, passes, laid⟩ := before
  obtain ⟨opening, middle, close, body, lbrace, rbrace, passes', laid', rfl⟩ := encloses
  have whole := Laid.braced braced laid lbrace laid' rbrace (Laid.nil (b := false))
  have path := passes.trans passes'
  rw [← List.append_assoc] at path
  have some : front ++ opening :: middle ++ [close] ≠ [] := by simp
  rw [List.append_nil, path.extent_eq some] at whole
  exact ⟨_, some, path, whole⟩

theorem Reads.concise {c c₁ c₂ : Cursor} {async : Bool} {heads : List Node} {value : Node}
    (before : Reads c heads c₁) (later : Crosses c₁ [value] c₂) :
    Crosses c [.mk (.arrow async true) ⟨c.token.start.offset, c₂.last⟩ (heads ++
      [.mk .functionBody value.span [.mk .expressionStatement value.span [value]]])] c₂ := by
  obtain ⟨front, passes, laid⟩ := before
  obtain ⟨inner, some, passes', laid'⟩ := later
  have whole := @Laid.concise false async _ _ _ _ _ _ laid some laid' .nil
  have path := passes.trans passes'
  have some' : front ++ inner ≠ [] := by simp [some]
  rw [List.append_nil, path.extent_eq some'] at whole
  exact ⟨_, some', path, whole⟩

namespace Grammar
open Reading

variable {d : Descent}

theorem asDirective_crosses {c c' : Cursor} {n directive : Node}
    (found : asDirective? n = some directive) (crosses : Crosses c [n] c') :
    Crosses c [directive] c' := by
  unfold asDirective? at found
  split at found
  · cases found
    obtain ⟨ts, some, passes, laid⟩ := crosses
    exact ⟨ts, some, passes, laid.rename rfl rfl rfl⟩
  · cases found

theorem prologue_areNodes (sound : d.Sound) (s : Setting) (bound : Nat) :
    (prologue d s bound).AreNodes := by
  induction bound with
  | zero =>
      intro c c' ns h
      obtain ⟨rfl, rfl⟩ := pure_ok.mp h
      exact .stay
  | succ bound ih =>
      intro c c' ns h
      rw [prologue, current_bind] at h
      generalize c.token.kind = k at h
      split at h
      · obtain ⟨statement, c₁, first, h⟩ := bind_ok.mp h
        cases found : asDirective? statement with
        | none =>
            rw [found] at h
            obtain ⟨rfl, rfl⟩ := pure_ok.mp h
            exact (sound _ _ first).reads
        | some directive =>
            simp only [found, bind_ok, pure_ok] at h
            obtain ⟨rest, c₂, later, rfl, rfl⟩ := h
            exact (asDirective_crosses found (sound _ _ first)).reads.trans (ih later)
      · obtain ⟨rfl, rfl⟩ := pure_ok.mp h
        exact .stay

theorem statements_areNodes (sound : d.Sound) (s : Setting) : (statements d s).AreNodes := by
  apply many_areNodes
  · intro c c' n h
    rw [current_bind] at h
    generalize c.token.kind = k at h
    split at h
    · simp at h
    · simp at h
    · simp at h
      exact (sound _ _ h).reads
  · intro c c' h
    rw [current_bind] at h
    generalize c.token.kind = k at h
    split at h
    · simp at h
      exact h ▸ .stay
    · simp at h
      exact h ▸ .stay
    · simp at h

theorem functionBody_encloses (sound : d.Sound) (s : Setting) {c c' : Cursor} {n : Node}
    (h : functionBody d s c = .ok (n, c')) : Encloses c n c' := by
  simp [functionBody] at h
  obtain ⟨lbrace, opening, c₁, first, rest, c₂, later, rbrace, rfl, rfl⟩ := h
  obtain ⟨middle, passes, laid⟩ :=
    (prologue_areNodes sound s _ first).trans (statements_areNodes sound s later)
  have real {t : Token} {sign : Punct} (seen : t.isPunct sign = true) : t.kind.isReal = true :=
    Token.isReal_of_separates (Token.separates_of_isPunct seen (b := false))
  exact ⟨c.token, middle, c₂.token, opening ++ rest, lbrace, rbrace,
    .move (real lbrace) (passes.trans (.move (real rbrace) .stay)), laid, rfl⟩

theorem methodFunction_isNode (sound : d.Sound) (async generator : Bool) :
    (methodFunction d async generator).IsNode := by
  intro c c' n h
  simp [methodFunction] at h
  obtain ⟨parameters, c₁, first, body, later, rfl⟩ := h
  exact (parameterList_isNode sound _ first).reads.braced (functionBody_encloses sound _ later) rfl

theorem checkAccessor_stays {form : Node.Form} {method : Node} {c c' : Cursor} {u : Unit}
    (h : checkAccessor form method c = .ok (u, c')) : c' = c := by
  unfold checkAccessor at h
  generalize method.children = parts at h
  split at h
  · simp at h
    exact h.2
  next parameters _ =>
    generalize parameters.children = items at h
    split at h
    · exact (pure_ok.mp h).2
    · simp at h
  · exact (pure_ok.mp h).2

theorem function_crosses (sound : d.Sound) {c c₁ c₂ c₃ : Cursor} {s t : Setting}
    {async generator : Bool} {name : List Node} {parameters body : Node} (before : Reads c name c₁)
    (first : parameterList d s c₁ = .ok (parameters, c₂))
    (later : functionBody d t c₂ = .ok (body, c₃)) :
    Crosses c [.mk (.function async generator) ⟨c.token.start.offset, c₃.last⟩
      (name ++ [parameters, body])] c₃ := by
  have heads := before.trans (parameterList_isNode sound s first).reads
  have whole : Crosses c [.mk (.function async generator) ⟨c.token.start.offset, c₃.last⟩
      ((name ++ [parameters]) ++ [body])] c₃ :=
    heads.braced (functionBody_encloses sound t later) rfl
  rwa [List.append_assoc] at whole

theorem functionExpression_isNode (sound : d.Sound) (s : Setting) :
    (functionExpression d s).IsNode := by
  intro c c' n h
  simp only [functionExpression, here_bind, bind_ok, expectWord_bind, ite_ok, ite_run, refuse_ok,
    and_false, or_false, current_bind, pure_ok, finish_ok] at h
  obtain ⟨async, c₁, asyncWord, word, generator, c₂, star, h⟩ := h
  have before := (acceptWord_skips asyncWord).trans
    ((Crosses.skip_word word).reads.trans (accept_skips star))
  rcases h with
    ⟨-, name, c₃, named, _, _, ⟨rfl, rfl⟩, parameters, c₄, first, body, c₅, later, rfl, rfl⟩ |
    ⟨-, _, _, ⟨rfl, rfl⟩, parameters, c₄, first, body, c₅, later, rfl, rfl⟩
  · exact function_crosses sound (before.trans (bindingName_isNode _ named).reads) first later
  · exact function_crosses sound before first later

theorem functionDeclaration_isNode (sound : d.Sound) (s : Setting) (nameless : Bool) :
    (functionDeclaration d s nameless).IsNode := by
  intro c c' n h
  simp only [functionDeclaration, here_bind, bind_ok, expectWord_bind, ite_ok, ite_run, refuse_ok,
    and_false, or_false, current_bind, pure_ok, finish_ok] at h
  obtain ⟨async, c₁, asyncWord, word, generator, c₂, star, h⟩ := h
  have before := (acceptWord_skips asyncWord).trans
    ((Crosses.skip_word word).reads.trans (accept_skips star))
  rcases h with
    ⟨-, _, _, ⟨rfl, rfl⟩, parameters, c₄, first, body, c₅, later, rfl, rfl⟩ |
    ⟨-, name, c₃, named, _, _, ⟨rfl, rfl⟩, parameters, c₄, first, body, c₅, later, rfl, rfl⟩
  · exact function_crosses sound before first later
  · exact function_crosses sound (before.trans (bindingName_isNode _ named).reads) first later

theorem arrowSign_skips {c c' : Cursor} {u : Unit} (h : arrowSign c = .ok (u, c')) :
    Reads c [] c' := by
  simp [arrowSign] at h
  obtain ⟨⟨sign, -⟩, rfl⟩ := h
  exact (Crosses.skip_punct sign).reads

theorem signed_reads {r : Reading Node} (one : r.IsNode) {c c' : Cursor} {async b : Bool}
    {parameters : Node}
    (h : (do
      let parameters ← r
      arrowSign
      return (b, parameters)) c = .ok ((async, parameters), c')) :
    Reads c [parameters] c' := by
  simp only [bind_ok, pure_ok, Prod.mk.injEq] at h
  obtain ⟨_, c₁, first, _, c₂, sign, ⟨-, rfl⟩, rfl⟩ := h
  exact (one first).reads.trans (arrowSign_skips sign)

theorem arrowHead_reads (sound : d.Sound) (s : Setting) {c c' : Cursor} {async : Bool}
    {parameters : Node} (h : arrowHead? d s c = .ok (some (async, parameters), c')) :
    Reads c [parameters] c' := by
  simp only [arrowHead?, current_bind] at h
  generalize kind : c.token.kind = k at h
  split at h
  · rw [ahead_bind, ite_run] at h
    split at h
    · exact signed_reads (parameterList_isNode sound s) (attempt_some_ok.mp h)
    · simp at h
  next keyword =>
    have word : Reads c [] c.next := (Crosses.skip kind rfl).reads
    simp only [ahead_bind, ite_run, discard_bind] at h
    split at h
    · rw [attempt_some_ok, move_bind] at h
      exact word.trans (signed_reads (loneParameter_isNode _) h)
    split at h
    · rw [attempt_some_ok, move_bind] at h
      exact word.trans (signed_reads (parameterList_isNode sound _) h)
    split at h
    · exact signed_reads (loneParameter_isNode s) (attempt_some_ok.mp h)
    · simp at h
  · simp at h

theorem arrowHead_stays {s : Setting} {c c' : Cursor} (h : arrowHead? d s c = .ok (none, c')) :
    c' = c := by
  simp only [arrowHead?, current_bind] at h
  generalize kind : c.token.kind = k at h
  split at h
  · rw [ahead_bind, ite_run] at h
    split at h
    · exact attempt_none_ok h
    · exact (pure_ok.mp h).2
  · simp only [ahead_bind, ite_run] at h
    split at h
    · exact attempt_none_ok h
    split at h
    · exact attempt_none_ok h
    split at h
    · exact attempt_none_ok h
    · exact (pure_ok.mp h).2
  · exact (pure_ok.mp h).2

theorem arrowBody_crosses (sound : d.Sound) (s : Setting) {c c₁ c₂ : Cursor}
    {async concise : Bool} {parameters body : Node} (before : Reads c [parameters] c₁)
    (h : arrowBody d s async c₁ = .ok ((concise, body), c₂)) :
    Crosses c [.mk (.arrow async concise) ⟨c.token.start.offset, c₂.last⟩ [parameters, body]]
      c₂ := by
  simp only [arrowBody, sees_bind, ite_run, bind_ok, pure_ok, ite_ok, Prod.mk.injEq] at h
  rcases h with ⟨-, _, _, braces, ⟨rfl, rfl⟩, rfl⟩ | ⟨-, value, _, inner, ⟨rfl, rfl⟩, rfl⟩
  · exact before.braced (functionBody_encloses sound _ braces) rfl
  · exact before.concise (sound _ _ inner)

theorem arrowFunction_crosses (sound : d.Sound) (s : Setting) {c c' : Cursor} {n : Node}
    (h : arrowFunction? d s c = .ok (some n, c')) : Crosses c [n] c' := by
  simp only [arrowFunction?, here_bind, bind_ok] at h
  obtain ⟨o, c₁, head, h⟩ := h
  cases o with
  | none => simp at h
  | some found =>
      obtain ⟨async, parameters⟩ := found
      simp only [bind_ok, finish_bind, pure_ok, Option.some.injEq] at h
      obtain ⟨⟨concise, body⟩, c₂, rest, rfl, rfl⟩ := h
      exact arrowBody_crosses sound s (arrowHead_reads sound s head) rest

theorem arrowFunction_stays {s : Setting} {c c' : Cursor}
    (h : arrowFunction? d s c = .ok (none, c')) : c' = c := by
  simp only [arrowFunction?, here_bind, bind_ok] at h
  obtain ⟨o, c₁, head, h⟩ := h
  cases o with
  | some found => simp at h
  | none =>
      obtain ⟨-, rfl⟩ := pure_ok.mp h
      exact arrowHead_stays head

end Grammar
end AmdUnwrap
