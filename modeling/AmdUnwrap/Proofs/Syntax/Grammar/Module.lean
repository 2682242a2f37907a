import AmdUnwrap.Proofs.Syntax.Grammar.Expression
import AmdUnwrap.Syntax.Grammar.Module

namespace AmdUnwrap.Grammar
open Reading

variable {d : Descent}

theorem declarator_isNode (sound : d.Sound) (s : Setting) : (declarator d s).IsNode := by
  intro c c' n h
  simp [declarator] at h
  obtain ⟨target, c₁, first, ⟨assign, value, later, rfl⟩ | ⟨-, rfl, rfl⟩⟩ := h
  · exact ((sound _ _ first).trans
      ((Crosses.skip_punct assign).reads.trans (sound _ _ later).reads)).finish rfl
  · exact (sound _ _ first).finish rfl

theorem bindingKeyword_skips {c c' : Cursor} {keyword : BindingKeyword}
    (h : bindingKeyword c = .ok (keyword, c')) : Crosses c [] c' := by
  simp only [bindingKeyword, current_bind] at h
  generalize kind : c.token.kind = k at h
  split at h
  · obtain ⟨-, rfl⟩ := pure_ok.mp h
    exact .skip kind rfl
  · obtain ⟨-, rfl⟩ := pure_ok.mp h
    exact .skip kind rfl
  · obtain ⟨-, rfl⟩ := pure_ok.mp h
    exact .skip kind rfl
  · simp at h

theorem declarators_crosses (sound : d.Sound) (s : Setting) {c c' : Cursor}
    {keyword : BindingKeyword} {items : List Node}
    (h : declarators d s c = .ok ((keyword, items), c')) : Crosses c items c' := by
  simp only [declarators, bind_ok, pure_ok, Prod.mk.injEq] at h
  obtain ⟨_, c₁, word, first, c₂, one, rest, c₃, others, ⟨-, rfl⟩, rfl⟩ := h
  have after : Reads c₂ rest c' := by
    refine many_areNodes ?_ ?_ _ others
    · intro a a' n h
      rw [accept_bind] at h
      split at h
      next comma =>
        simp at h
        exact (Crosses.skip_punct comma).reads.trans (declarator_isNode sound s h).reads
      · simp at h
    · intro a a' h
      simp at h
      exact h.2 ▸ .stay
  exact (bindingKeyword_skips word).trans ((declarator_isNode sound s one).reads.trans after)

theorem checkInitializers_stays {keyword : BindingKeyword} {items : List Node} {c c' : Cursor}
    {u : Unit} (h : checkInitializers keyword items c = .ok (u, c')) : c' = c := by
  unfold checkInitializers at h
  cases found : items.find? (lacksInitializer keyword) with
  | some item => simp [found] at h
  | none =>
      rw [found] at h
      exact (pure_ok.mp h).2

theorem variableStatement_isNode (sound : d.Sound) (s : Setting) :
    (variableStatement d s).IsNode := by
  intro c c' n h
  simp only [variableStatement, here_bind, bind_ok, finish_ok] at h
  obtain ⟨⟨keyword, items⟩, c₁, first, _, c₂, checked, _, c₃, ended, rfl, rfl⟩ := h
  obtain rfl := checkInitializers_stays checked
  exact ((declarators_crosses sound s first).past (semicolon_skips ended)).finish rfl

theorem moduleName_isNode : moduleName.IsNode := by
  intro c c' n h
  simp only [moduleName, current_bind] at h
  generalize kind : c.token.kind = k at h
  split at h
  · exact plain_crosses kind rfl rfl h
  · exact stringLiteral_isNode h

theorem requestAttribute_isNode : requestAttribute.IsNode := by
  intro c c' n h
  simp [requestAttribute] at h
  obtain ⟨key, c₁, first, colon, value, later, rfl⟩ := h
  exact ((moduleName_isNode first).trans
    ((Crosses.skip_punct colon).reads.trans (stringLiteral_isNode later).reads)).finish rfl

theorem attributes_areNodes : (attributes d).AreNodes := by
  intro c c' ns h
  rw [attributes, acceptWord_bind] at h
  split at h
  next word =>
    simp only [if_true, expect_bind, ite_ok, refuse_ok, and_false, or_false, bind_ok,
      pure_ok] at h
    obtain ⟨opening, ⟨items, trailing⟩, c₁, inner, rfl, rfl⟩ := h
    exact (Crosses.skip_word word).reads.trans ((Crosses.skip_punct opening).reads.trans
      (separated_nodes requestAttribute_isNode _ _ inner))
  · obtain ⟨rfl, rfl⟩ := pure_ok.mp h
    exact .stay

theorem fromClause_areNodes : (fromClause d).AreNodes := by
  intro c c' ns h
  simp only [fromClause, expectWord_bind, ite_ok, refuse_ok, and_false, or_false, bind_ok,
    pure_ok] at h
  obtain ⟨word, source, c₁, first, rest, c₂, later, rfl, rfl⟩ := h
  exact (Crosses.skip_word word).reads.trans
    ((stringLiteral_isNode first).reads.trans (attributes_areNodes later))

theorem importSpecifier_isNode (s : Setting) : (importSpecifier s).IsNode := by
  intro c c' n h
  simp only [importSpecifier, here_bind, ahead_bind, ite_run] at h
  split at h
  · simp only [bind_ok, expectWord_bind, ite_ok, refuse_ok, and_false, or_false, finish_ok] at h
    obtain ⟨name, c₁, first, word, target, c₂, later, rfl, rfl⟩ := h
    exact ((moduleName_isNode first).trans ((Crosses.skip_word word).reads.trans
      (bindingName_isNode s later).reads)).finish rfl
  · simp only [bind_ok, finish_ok] at h
    obtain ⟨target, c₁, first, rfl, rfl⟩ := h
    exact (bindingName_isNode s first).finish rfl

theorem importNames_areNodes (s : Setting) : (importNames d s).AreNodes := by
  intro c c' ns h
  rw [importNames, here_bind, accept_bind] at h
  split at h
  next star =>
    simp only [if_true, expectWord_bind, ite_ok, refuse_ok, and_false, or_false, bind_ok,
      finish_bind, pure_ok] at h
    obtain ⟨word, target, c₁, first, rfl, rfl⟩ := h
    have whole := (Crosses.skip_punct star).trans ((Crosses.skip_word word).reads.trans
      (bindingName_isNode s first).reads)
    exact (whole.finish rfl).reads
  · simp only [Bool.false_eq_true, if_false, expect_bind, ite_ok, refuse_ok, and_false, or_false,
      bind_ok, pure_ok] at h
    obtain ⟨opening, ⟨items, trailing⟩, c₁, inner, rfl, rfl⟩ := h
    exact (Crosses.skip_punct opening).reads.trans
      (separated_nodes (importSpecifier_isNode s) _ _ inner)

theorem importClause_areNodes (s : Setting) : (importClause d s).AreNodes := by
  intro c c' ns h
  rw [importClause, current_bind, ite_run] at h
  split at h
  · rw [here_bind, bind_ok] at h
    obtain ⟨target, c₁, first, h⟩ := h
    rw [finish_bind] at h
    have whole : Crosses c [.mk .importSpecifier _ [target]] c₁ :=
      (bindingName_isNode s first).finish rfl
    have before := whole.reads
    rw [accept_bind] at h
    split at h
    next comma =>
      simp only [if_true, bind_ok, pure_ok] at h
      obtain ⟨rest, c₂, later, rfl, rfl⟩ := h
      exact before.trans ((Crosses.skip_punct comma).reads.trans (importNames_areNodes s later))
    · obtain ⟨rfl, rfl⟩ := pure_ok.mp h
      exact before
  · exact importNames_areNodes s h

theorem importDeclaration_isNode (s : Setting) : (importDeclaration d s).IsNode := by
  intro c c' n h
  rw [importDeclaration, here_bind, expectWord_bind] at h
  split at h
  next word =>
    have opening := Crosses.skip_word word
    rw [current_bind] at h
    generalize c.next.token.kind = k at h
    split at h
    · simp only [bind_ok, pure_run, finish_ok] at h
      obtain ⟨source, c₁, first, rest, c₂, later, _, c₃, ended, rfl, rfl⟩ := h
      have parts := (stringLiteral_isNode first).reads.trans (attributes_areNodes later)
      exact (opening.trans (parts.past (semicolon_skips ended))).finish rfl
    · simp only [bind_ok, pure_run, finish_ok] at h
      obtain ⟨source, c₁, first, rest, c₂, later, _, c₃, ended, rfl, rfl⟩ := h
      have parts := (importClause_areNodes s first).trans (fromClause_areNodes later)
      exact (opening.trans (parts.past (semicolon_skips ended))).finish rfl
  · simp at h

theorem exportSpecifier_isNode : exportSpecifier.IsNode := by
  intro c c' n h
  simp only [exportSpecifier, here_bind, bind_ok, acceptWord_bind] at h
  obtain ⟨name, c₁, first, h⟩ := h
  have before := moduleName_isNode first
  split at h
  next word =>
    simp only [if_true, bind_ok, finish_ok] at h
    obtain ⟨outside, c₂, later, rfl, rfl⟩ := h
    exact (before.trans ((Crosses.skip_word word).reads.trans
      (moduleName_isNode later).reads)).finish rfl
  · obtain ⟨rfl, rfl⟩ := finish_ok.mp h
    exact before.finish rfl

theorem exportedNames_crosses {items source : List Node} {c c₁ c₂ : Cursor} {n : Node}
    (before : Crosses c (items ++ source) c₁)
    (h : (do
      if source.isEmpty then
        match items.find? (!namesVariable ·) with
        | some item => fail .unexpectedToken item.span.start
        | none => pure ()
      semicolon
      finish c.token.start.offset .exportNamed (items ++ source)) c₁ = .ok (n, c₂)) :
    Crosses c [n] c₂ := by
  have ending (h : (do
      semicolon
      finish c.token.start.offset .exportNamed (items ++ source)) c₁ = .ok (n, c₂)) :
      Crosses c [n] c₂ := by
    simp only [bind_ok, finish_ok] at h
    obtain ⟨_, c₃, ended, rfl, rfl⟩ := h
    exact (before.past (semicolon_skips ended)).finish rfl
  dsimp only at h
  rw [ite_run] at h
  split at h
  · cases found : items.find? (!namesVariable ·) with
    | some item => simp [found] at h
    | none =>
        rw [found] at h
        exact ending h
  · exact ending h

theorem exportNames_crosses {c c₁ c₂ : Cursor} {n : Node} (before : Crosses c [] c₁)
    (h : exportNames d c.token.start.offset c₁ = .ok (n, c₂)) : Crosses c [n] c₂ := by
  rw [exportNames, expect_bind] at h
  split at h
  next opening =>
    rw [bind_ok] at h
    obtain ⟨⟨items, trailing⟩, c₃, inner, h⟩ := h
    have names := before.trans ((Crosses.skip_punct opening).reads.trans
      (separated_nodes exportSpecifier_isNode _ _ inner))
    dsimp only at h
    rw [seesWord_bind, ite_run] at h
    split at h
    · rw [bind_ok] at h
      obtain ⟨source, c₄, later, h⟩ := h
      exact exportedNames_crosses (names.trans (fromClause_areNodes later)) h
    · exact exportedNames_crosses (names.trans .stay) h
  · simp at h

theorem exportEverything_crosses {c c₁ c₂ : Cursor} {n : Node} (before : Crosses c [] c₁)
    (h : exportEverything d c.token.start.offset c₁ = .ok (n, c₂)) : Crosses c [n] c₂ := by
  rw [exportEverything, expect_bind] at h
  split at h
  next star =>
    have opening := before.past (Crosses.skip_punct star).reads
    rw [acceptWord_bind] at h
    split at h
    next word =>
      simp only [if_true, bind_ok, pure_run, finish_ok] at h
      obtain ⟨name, c₃, first, source, c₄, later, _, c₅, ended, rfl, rfl⟩ := h
      have parts := (moduleName_isNode first).reads.trans (fromClause_areNodes later)
      exact (opening.trans ((Crosses.skip_word word).reads.trans
        (parts.past (semicolon_skips ended)))).finish rfl
    · simp only [Bool.false_eq_true, if_false, bind_ok, pure_run, finish_ok] at h
      obtain ⟨source, c₃, later, _, c₄, ended, rfl, rfl⟩ := h
      exact (opening.trans ((fromClause_areNodes later).past (semicolon_skips ended))).finish rfl
  · simp at h

theorem exported_crosses {r : Reading Node} (one : r.IsNode) {kind : Node.Kind}
    (composite : kind.isComposite = true) {c c₁ c₂ : Cursor} {n : Node} (before : Crosses c [] c₁)
    (h : (do finish c.token.start.offset kind [← r]) c₁ = .ok (n, c₂)) : Crosses c [n] c₂ := by
  simp only [bind_ok, finish_ok] at h
  obtain ⟨value, c₃, first, rfl, rfl⟩ := h
  exact (before.trans (one first).reads).finish composite

theorem exportDefault_crosses (sound : d.Sound) (s : Setting) {c c₁ c₂ : Cursor} {n : Node}
    (before : Crosses c [] c₁)
    (h : exportDefault d s c.token.start.offset c₁ = .ok (n, c₂)) : Crosses c [n] c₂ := by
  simp only [exportDefault, current_bind, ahead_bind, ite_run] at h
  split at h
  · exact exported_crosses (functionDeclaration_isNode sound s true) rfl before h
  split at h
  · exact exported_crosses (classDefinition_isNode sound s true) rfl before h
  · simp only [bind_ok, finish_ok] at h
    obtain ⟨value, c₃, first, _, c₄, ended, rfl, rfl⟩ := h
    exact (before.trans ((sound _ _ first).reads.past (semicolon_skips ended))).finish rfl

theorem exportDeclaration_isNode (sound : d.Sound) (s : Setting) :
    (exportDeclaration d s).IsNode := by
  intro c c' n h
  rw [exportDeclaration, here_bind, expectWord_bind] at h
  split at h
  next word =>
    have opening := Crosses.skip_word word
    rw [current_bind] at h
    generalize kind : c.next.token.kind = k at h
    split at h
    · exact exportEverything_crosses opening h
    · exact exportNames_crosses opening h
    · rw [discard_bind, move_bind] at h
      exact exportDefault_crosses sound s (opening.past (Crosses.skip kind rfl).reads) h
    · exact exported_crosses (variableStatement_isNode sound s) rfl opening h
    · exact exported_crosses (variableStatement_isNode sound s) rfl opening h
    · exact exported_crosses (variableStatement_isNode sound s) rfl opening h
    · exact exported_crosses (functionDeclaration_isNode sound s false) rfl opening h
    · exact exported_crosses (classDefinition_isNode sound s false) rfl opening h
    · rw [ahead_bind, ite_run] at h
      split at h
      · exact exported_crosses (functionDeclaration_isNode sound s false) rfl opening h
      · simp at h
    · simp at h
  · simp at h

end AmdUnwrap.Grammar
