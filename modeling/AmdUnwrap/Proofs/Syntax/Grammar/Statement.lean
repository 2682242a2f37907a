import AmdUnwrap.Proofs.Syntax.Grammar.Module
import AmdUnwrap.Syntax.Grammar.Statement
import AmdUnwrap.Syntax.Parse

namespace AmdUnwrap.Grammar
open Reading

variable {d : Descent}

theorem block_isNode (sound : d.Sound) (s : Setting) : (block d s).IsNode := by
  intro c c' n h
  simp only [block, here_bind, expect_bind, ite_ok, refuse_ok, and_false, or_false, bind_ok,
    finish_ok] at h
  obtain ⟨opening, body, c₁, inner, closed, rfl, rfl⟩ := h
  exact ((Crosses.skip_punct opening).trans
    ((statements_areNodes sound s inner).past (Crosses.skip_punct closed).reads)).finish rfl

theorem condition_isNode (sound : d.Sound) (s : Setting) : (condition d s).IsNode := by
  intro c c' n h
  simp only [condition, expect_bind, ite_ok, refuse_ok, and_false, or_false, bind_ok,
    pure_ok] at h
  obtain ⟨opening, test, c₁, inner, closed, rfl, rfl⟩ := h
  exact (Crosses.skip_punct opening).trans
    ((sound _ _ inner).reads.past (Crosses.skip_punct closed).reads)

theorem label_crosses {name : Text} {span : Span} {children : List Node} {c c' : Cursor}
    (crosses : Crosses c [.mk (.identifier name) span children] c') :
    Crosses c [.mk (.label name) span []] c' := by
  obtain ⟨ts, some, passes, laid⟩ := crosses
  exact ⟨ts, some, passes, laid.label_of_identifier⟩

theorem expressionStatement_isNode (sound : d.Sound) (s : Setting) :
    (expressionStatement d s).IsNode := by
  intro c c' n h
  simp only [expressionStatement, here_bind, bind_ok] at h
  obtain ⟨value, c₁, first, h⟩ := h
  have before := sound _ _ first
  have ending (h : (do
      semicolon
      finish c.token.start.offset .expressionStatement [value]) c₁ = .ok (n, c')) :
      Crosses c [n] c' := by
    simp only [bind_ok, finish_ok] at h
    obtain ⟨_, c₂, ended, rfl, rfl⟩ := h
    exact (before.past (semicolon_skips ended)).finish rfl
  split at h
  · rw [accept_bind] at h
    split at h
    next colon =>
      simp at h
      obtain ⟨body, later, rfl⟩ := h
      exact ((label_crosses before).trans ((Crosses.skip_punct colon).reads.trans
        (sound _ _ later).reads)).finish rfl
    · exact ending h
  · exact ending h

theorem functionStatement_isNode (sound : d.Sound) (s : Setting) (alone : Bool) :
    (functionStatement d s alone).IsNode := by
  intro c c' n h
  rw [functionStatement, bind_ok] at h
  obtain ⟨function, c₁, first, h⟩ := h
  have whole := functionDeclaration_isNode sound s false first
  generalize function.kind = kind at h
  split at h
  · obtain ⟨rfl, rfl⟩ := pure_ok.mp h
    exact whole
  · simp at h
  · obtain ⟨rfl, rfl⟩ := pure_ok.mp h
    exact whole

variable {c c' : Cursor} {n : Node}

theorem ifStatement_crosses (sound : d.Sound) (s : Setting) (word : Crosses c [] c.next)
    (h : ifStatement d s c = .ok (n, c')) : Crosses c [n] c' := by
  simp only [ifStatement, here_bind, discard_bind, move_bind, bind_ok, acceptWord_bind] at h
  obtain ⟨test, c₁, first, yes, c₂, second, h⟩ := h
  have before := word.trans
    ((condition_isNode sound s first).reads.trans (sound _ _ second).reads)
  split at h
  next other =>
    simp only [if_true, bind_ok, finish_ok] at h
    obtain ⟨no, c₃, third, rfl, rfl⟩ := h
    exact (before.trans ((Crosses.skip_word other).reads.trans
      (sound _ _ third).reads)).finish rfl
  · obtain ⟨rfl, rfl⟩ := finish_ok.mp h
    exact before.finish rfl

theorem headedStatement_crosses (sound : d.Sound) (s : Setting) {kind : Node.Kind}
    (composite : kind.isComposite = true) (word : Crosses c [] c.next)
    (h : headedStatement d s kind c = .ok (n, c')) : Crosses c [n] c' := by
  simp only [headedStatement, here_bind, discard_bind, move_bind, bind_ok, finish_ok] at h
  obtain ⟨test, c₁, first, body, c₂, later, rfl, rfl⟩ := h
  exact (word.trans ((condition_isNode sound s first).reads.trans
    (sound _ _ later).reads)).finish composite

theorem doStatement_crosses (sound : d.Sound) (s : Setting) (word : Crosses c [] c.next)
    (h : doStatement d s c = .ok (n, c')) : Crosses c [n] c' := by
  simp only [doStatement, here_bind, discard_bind, move_bind, bind_ok, expectWord_bind, ite_ok,
    refuse_ok, and_false, or_false, finish_ok] at h
  obtain ⟨body, c₁, first, again, test, c₂, later, semicolon, c₃, ended, rfl, rfl⟩ := h
  have parts := (sound _ _ first).reads.trans
    ((Crosses.skip_word again).reads.trans (condition_isNode sound s later).reads)
  exact (word.trans (parts.past (accept_skips ended))).finish rfl

theorem throwStatement_crosses (sound : d.Sound) (s : Setting) (word : Crosses c [] c.next)
    (h : throwStatement d s c = .ok (n, c')) : Crosses c [n] c' := by
  simp only [throwStatement, here_bind, discard_bind, move_bind, current_bind, ite_run] at h
  split at h
  · simp at h
  · simp only [bind_ok, finish_ok] at h
    obtain ⟨value, c₁, first, _, c₂, ended, rfl, rfl⟩ := h
    exact (word.trans ((sound _ _ first).reads.past (semicolon_skips ended))).finish rfl

theorem debuggerStatement_crosses (word : Crosses c [] c.next)
    (h : debuggerStatement c = .ok (n, c')) : Crosses c [n] c' := by
  simp only [debuggerStatement, here_bind, discard_bind, move_bind, bind_ok, finish_ok] at h
  obtain ⟨_, c₁, ended, rfl, rfl⟩ := h
  exact (word.past (semicolon_skips ended)).finish rfl

theorem returnStatement_crosses (sound : d.Sound) (s : Setting)
    (word : c.token.isWord .returnWord = true) (h : returnStatement d s c = .ok (n, c')) :
    Crosses c [n] c' := by
  rw [returnStatement, here_bind] at h
  split at h
  · simp at h
  · simp only [discard_bind, move_bind, current_bind, ite_run] at h
    split at h
    · simp only [pure_run, bind_ok, finish_ok] at h
      obtain ⟨_, c₁, ended, rfl, rfl⟩ := h
      exact (semicolon_skips ended).returning word
    · simp only [pure_run, bind_ok, finish_ok] at h
      obtain ⟨value, c₁, first, _, c₂, ended, rfl, rfl⟩ := h
      exact ((sound _ _ first).reads.past (semicolon_skips ended)).returning word

theorem jumpStatement_crosses (s : Setting) {kind : Node.Kind}
    (composite : kind.isComposite = true) (word : Crosses c [] c.next)
    (h : jumpStatement s kind c = .ok (n, c')) : Crosses c [n] c' := by
  simp only [jumpStatement, here_bind, discard_bind, move_bind, current_bind, ite_run] at h
  split at h
  · simp only [pure_run, bind_ok, finish_ok] at h
    obtain ⟨name, c₁, named, target, c₂, first, _, c₃, ended, rfl, rfl⟩ := h
    obtain ⟨rfl, keyword, kind⟩ := variableName_ok named
    have target := plain_crosses kind rfl rfl first
    exact (word.trans (target.reads.past (semicolon_skips ended))).finish composite
  · simp only [pure_run, bind_ok, finish_ok] at h
    obtain ⟨_, c₁, ended, rfl, rfl⟩ := h
    exact (word.past (semicolon_skips ended)).finish composite

variable {c₁ c₂ : Cursor} {awaits : Bool}

theorem forEach_crosses (sound : d.Sound) (s : Setting) {target : Node}
    (before : Crosses c [target] c₁)
    (h : forEach d s c.token.start.offset awaits target c₁ = .ok (n, c₂)) : Crosses c [n] c₂ := by
  rw [forEach, seesWord_bind, ite_run] at h
  split at h
  next keys =>
    have word := Crosses.skip_word (Bool.and_eq_true .. ▸ keys).1
    simp only [discard_bind, move_bind, bind_ok, expect_bind, ite_ok, refuse_ok, and_false,
      or_false, finish_ok] at h
    obtain ⟨source, c₃, first, closed, body, c₄, later, rfl, rfl⟩ := h
    have parts := (sound _ _ first).reads.trans
      ((Crosses.skip_punct closed).reads.trans (sound _ _ later).reads)
    exact (before.trans (word.reads.trans parts)).finish rfl
  · simp only [expectWord_bind, bind_ok, expect_bind, ite_ok, refuse_ok, and_false, or_false,
      finish_ok] at h
    obtain ⟨values, source, c₃, first, closed, body, c₄, later, rfl, rfl⟩ := h
    have parts := (sound _ _ first).reads.trans
      ((Crosses.skip_punct closed).reads.trans (sound _ _ later).reads)
    exact (before.trans ((Crosses.skip_word values).reads.trans parts)).finish rfl

theorem optionalExpression_areNodes (sound : d.Sound) (s : Setting) (close : Punct) :
    (optionalExpression d s close).AreNodes := by
  intro c c' ns h
  rw [optionalExpression, accept_bind] at h
  split at h
  next closed =>
    obtain ⟨rfl, rfl⟩ := pure_ok.mp h
    exact (Crosses.skip_punct closed).reads
  · simp only [Bool.false_eq_true, if_false, bind_ok, expect_bind, ite_ok, refuse_ok, and_false,
      or_false, pure_ok] at h
    obtain ⟨value, c₁, first, closed, rfl, rfl⟩ := h
    exact (sound _ _ first).reads.past (Crosses.skip_punct closed).reads

theorem forSteps_crosses (sound : d.Sound) (s : Setting) {opening : List Node}
    (before : Crosses c opening c₁)
    (h : forSteps d s c.token.start.offset awaits opening c₁ = .ok (n, c₂)) :
    Crosses c [n] c₂ := by
  rw [forSteps, ite_run] at h
  split at h
  · simp at h
  · simp only [bind_ok, expect_bind, ite_ok, refuse_ok, and_false, or_false, finish_ok] at h
    obtain ⟨semicolon, test, c₃, first, step, c₄, second, body, c₅, third, rfl, rfl⟩ := h
    have steps := ((before.past (Crosses.skip_punct semicolon).reads).trans
      (optionalExpression_areNodes sound s _ first)).trans
      (optionalExpression_areNodes sound s _ second)
    exact (steps.trans (sound _ _ third).reads).finish rfl

theorem forDeclaration_crosses (sound : d.Sound) (s : Setting) (before : Crosses c [] c₁)
    (h : forDeclaration d s c.token.start.offset awaits c₁ = .ok (n, c₂)) : Crosses c [n] c₂ := by
  rw [forDeclaration, here_bind, bind_ok] at h
  obtain ⟨⟨keyword, items⟩, c₃, first, h⟩ := h
  dsimp only at h
  rw [finish_bind] at h
  have whole : Crosses c₁ [.mk (.variableDeclaration keyword) _ items] c₃ :=
    (declarators_crosses sound _ first).finish rfl
  have declared := before.trans whole.reads
  rw [seesEach, bind_assoc, current_bind, pure_run, ite_run] at h
  split at h
  · exact forEach_crosses sound s declared h
  · rw [bind_ok] at h
    obtain ⟨_, c₄, checked, h⟩ := h
    obtain rfl := checkInitializers_stays checked
    exact forSteps_crosses sound s declared h

theorem forExpression_crosses (sound : d.Sound) (s : Setting) (before : Crosses c [] c₁)
    (h : forExpression d s c.token.start.offset awaits c₁ = .ok (n, c₂)) : Crosses c [n] c₂ := by
  rw [forExpression, current_bind, bind_ok] at h
  obtain ⟨opening, c₃, first, h⟩ := h
  have declared := before.trans (sound _ _ first).reads
  rw [seesEach, bind_assoc, current_bind, pure_run, ite_run] at h
  split at h
  · rw [seesWord_bind, ite_run] at h
    split at h
    · simp at h
    · exact forEach_crosses sound s declared h
  · exact forSteps_crosses sound s declared h

theorem forHead_crosses (sound : d.Sound) (s : Setting) {c₁ : Cursor} {awaits : Bool}
    (before : Crosses c [] c₁) (h : (do
      expect .lparen
      match (← current).kind with
      | .punct .semicolon => forSteps d s c.token.start.offset awaits []
      | .word _ (some .varWord) | .word _ (some .constWord) =>
        forDeclaration d s c.token.start.offset awaits
      | .word _ (some .letWord) =>
        if opensBinding (← ahead) then forDeclaration d s c.token.start.offset awaits
        else forExpression d s c.token.start.offset awaits
      | _ => forExpression d s c.token.start.offset awaits) c₁ = .ok (n, c')) :
    Crosses c [n] c' := by
  rw [expect_bind] at h
  split at h
  next paren =>
    have opening := before.past (Crosses.skip_punct paren).reads
    rw [current_bind] at h
    generalize c₁.next.token.kind = k at h
    split at h
    · exact forSteps_crosses sound s opening h
    · exact forDeclaration_crosses sound s opening h
    · exact forDeclaration_crosses sound s opening h
    · rw [ahead_bind, ite_run] at h
      split at h
      · exact forDeclaration_crosses sound s opening h
      · exact forExpression_crosses sound s opening h
    · exact forExpression_crosses sound s opening h
  · simp at h

theorem forStatement_crosses (sound : d.Sound) (s : Setting) (word : Crosses c [] c.next)
    (h : forStatement d s c = .ok (n, c')) : Crosses c [n] c' := by
  rw [forStatement, here_bind, discard_bind, move_bind] at h
  split at h
  · rw [bind_ok] at h
    obtain ⟨awaits, c₁, skipped, h⟩ := h
    exact forHead_crosses sound s (word.past (acceptWord_skips skipped)) h
  · exact forHead_crosses sound s word h

theorem caseBody_crosses (sound : d.Sound) (s : Setting) {test : List Node} {a a' : Cursor}
    (before : Crosses c test a) (h : (do
      expect .colon
      let body ← many (do
        match (← current).kind with
        | .punct .rbrace | .eof | .word _ (some .caseWord) | .word _ (some .defaultWord) =>
          return none
        | _ => return some (← d.read s (.statement false))) d.bound
      finish c.token.start.offset .switchCase (test ++ body)) a = .ok (n, a')) :
    Crosses c [n] a' := by
  simp only [expect_bind, ite_ok, refuse_ok, and_false, or_false] at h
  obtain ⟨colon, h⟩ := h
  rw [bind_ok] at h
  obtain ⟨body, b, inner, h⟩ := h
  obtain ⟨rfl, rfl⟩ := finish_ok.mp h
  have listed : Reads a.next body a' := by
    refine many_areNodes ?_ ?_ _ inner
    · intro b b' n h
      rw [current_bind] at h
      generalize b.token.kind = k at h
      split at h <;> simp at h
      exact (sound _ _ h).reads
    · intro b b' h
      rw [current_bind] at h
      generalize b.token.kind = k at h
      split at h <;> simp at h <;> exact h ▸ .stay
  exact (before.trans ((Crosses.skip_punct colon).reads.trans listed)).finish rfl

theorem switchCase_isNode (sound : d.Sound) (s : Setting) : (switchCase d s).IsNode := by
  intro c c' n h
  rw [switchCase, here_bind, acceptWord_bind] at h
  split at h
  next word =>
    simp only [if_true] at h
    rw [bind_ok] at h
    obtain ⟨test, c₁, first, h⟩ := h
    exact caseBody_crosses sound s ((Crosses.skip_word word).trans (sound _ _ first).reads) h
  · simp only [Bool.false_eq_true, if_false, expectWord_bind, ite_ok, refuse_ok, and_false,
      or_false] at h
    obtain ⟨word, h⟩ := h
    exact caseBody_crosses sound s (Crosses.skip_word word) h

theorem switchStatement_crosses (sound : d.Sound) (s : Setting) (word : Crosses c [] c.next)
    (h : switchStatement d s c = .ok (n, c')) : Crosses c [n] c' := by
  rw [switchStatement, here_bind, discard_bind, move_bind, bind_ok] at h
  obtain ⟨value, c₁, first, h⟩ := h
  rw [expect_bind] at h
  split at h
  next opening =>
    rw [bind_ok] at h
    obtain ⟨cases, c₂, inner, h⟩ := h
    have listed : Reads c₁.next cases c₂ := by
      refine many_areNodes ?_ ?_ _ inner
      · intro b b' n h
        rw [sees_bind] at h
        split at h <;> simp at h
        exact (switchCase_isNode sound s h).reads
      · intro b b' h
        rw [sees_bind] at h
        split at h <;> simp at h
        exact h ▸ .stay
    simp only [expect_bind, ite_ok, refuse_ok, and_false, or_false, finish_ok] at h
    obtain ⟨closed, rfl, rfl⟩ := h
    have cases := (Crosses.skip_punct opening).reads.trans
      (listed.past (Crosses.skip_punct closed).reads)
    exact (word.trans ((condition_isNode sound s first).reads.trans cases)).finish rfl
  · simp at h

theorem catchClause_isNode (sound : d.Sound) (s : Setting) : (catchClause d s).IsNode := by
  intro c c' n h
  have ending {target : List Node} {a a' : Cursor} (before : Crosses c target a) (h : (do
      let body ← block d s
      finish c.token.start.offset .catchClause (target ++ [body])) a = .ok (n, a')) :
      Crosses c [n] a' := by
    simp only [bind_ok, finish_ok] at h
    obtain ⟨body, c₁, later, rfl, rfl⟩ := h
    exact (before.trans (block_isNode sound s later).reads).finish rfl
  rw [catchClause, here_bind, expectWord_bind] at h
  split at h
  next word =>
    have opening := Crosses.skip_word word
    rw [accept_bind] at h
    split at h
    next paren =>
      simp only [if_true] at h
      rw [bind_ok] at h
      obtain ⟨target, c₁, first, h⟩ := h
      simp only [expect_bind, ite_ok, refuse_ok, and_false, or_false] at h
      obtain ⟨closed, h⟩ := h
      exact ending (opening.trans ((Crosses.skip_punct paren).reads.trans
        ((sound _ _ first).reads.past (Crosses.skip_punct closed).reads))) h
    · exact ending opening h
  · simp at h

theorem tryEnding_crosses (sound : d.Sound) (s : Setting) {parts handler : List Node}
    (before : Crosses c (parts ++ handler) c₁) (h : (do
      let finalizer ← if ← acceptWord .finallyWord then pure [← block d s] else pure []
      if handler.isEmpty && finalizer.isEmpty then fail .missingHandler (← here)
      finish c.token.start.offset .tryStatement (parts ++ handler ++ finalizer)) c₁ =
        .ok (n, c₂)) : Crosses c [n] c₂ := by
  rw [acceptWord_bind] at h
  split at h
  next word =>
    simp only [if_true] at h
    rw [bind_ok] at h
    obtain ⟨finalizer, c₃, first, h⟩ := h
    simp at h
    obtain ⟨rfl, rfl⟩ := h
    rw [← List.append_assoc]
    exact (before.trans ((Crosses.skip_word word).reads.trans
      (block_isNode sound s first).reads)).finish rfl
  · simp only [Bool.false_eq_true, if_false, pure_run, ite_run, here_bind, fail_bind, ite_ok,
      fail_ok, and_false, false_or, finish_ok, List.append_nil] at h
    obtain ⟨-, rfl, rfl⟩ := h
    exact before.finish rfl

theorem tryStatement_crosses (sound : d.Sound) (s : Setting) (word : Crosses c [] c.next)
    (h : tryStatement d s c = .ok (n, c')) : Crosses c [n] c' := by
  rw [tryStatement, here_bind, discard_bind, move_bind, bind_ok] at h
  obtain ⟨body, c₁, first, h⟩ := h
  have before := word.trans (block_isNode sound s first).reads
  rw [seesWord_bind, ite_run] at h
  split at h
  · rw [bind_ok] at h
    obtain ⟨clause, c₂, second, h⟩ := h
    exact tryEnding_crosses sound s (before.trans (catchClause_isNode sound s second).reads) h
  · exact tryEnding_crosses sound s (before.trans .stay) h

theorem declaration_isNode {r : Reading Node} (one : r.IsNode) (alone : Bool) :
    (declaration alone r).IsNode := by
  intro c c' n h
  unfold declaration at h
  split at h
  · simp at h
  · exact one h

theorem letStatement_isNode (sound : d.Sound) (s : Setting) (alone : Bool) :
    (letStatement d s alone).IsNode := by
  intro c c' n h
  rw [letStatement, ahead_bind, ite_run] at h
  split at h
  · exact expressionStatement_isNode sound s h
  rw [ite_run] at h
  split at h
  · exact expressionStatement_isNode sound s h
  · exact declaration_isNode (variableStatement_isNode sound s) alone h

theorem importStatement_isNode (sound : d.Sound) (s : Setting) : (importStatement d s).IsNode := by
  intro c c' n h
  rw [importStatement, ahead_bind, ite_run] at h
  split at h
  · exact expressionStatement_isNode sound s h
  · exact importDeclaration_isNode s h

theorem wordStatement_crosses (sound : d.Sound) (s : Setting) (alone : Bool) {keyword : Keyword}
    (isWord : c.token.isWord keyword = true) (h : wordStatement d s alone keyword c = .ok (n, c')) :
    Crosses c [n] c' := by
  have word := Crosses.skip_word isWord
  unfold wordStatement at h
  split at h
  · exact variableStatement_isNode sound s h
  · exact declaration_isNode (variableStatement_isNode sound s) alone h
  · exact letStatement_isNode sound s alone h
  · exact functionStatement_isNode sound s alone h
  · rw [ahead_bind, ite_run] at h
    split at h
    · exact functionStatement_isNode sound s alone h
    · exact expressionStatement_isNode sound s h
  · exact declaration_isNode (classDefinition_isNode sound s false) alone h
  · exact ifStatement_crosses sound s word h
  · exact forStatement_crosses sound s word h
  · exact headedStatement_crosses sound s rfl word h
  · exact headedStatement_crosses sound s rfl word h
  · exact doStatement_crosses sound s word h
  · exact jumpStatement_crosses s rfl word h
  · exact jumpStatement_crosses s rfl word h
  · exact returnStatement_crosses sound s isWord h
  · exact throwStatement_crosses sound s word h
  · exact switchStatement_crosses sound s word h
  · exact tryStatement_crosses sound s word h
  · exact debuggerStatement_crosses word h
  · exact importStatement_isNode sound s h
  · exact exportDeclaration_isNode sound s h
  · exact expressionStatement_isNode sound s h

theorem statement_isNode (sound : d.Sound) (s : Setting) (alone : Bool) :
    (statement d s alone).IsNode := by
  intro c c' n h
  rw [statement, current_bind] at h
  generalize kind : c.token.kind = k at h
  split at h
  · exact block_isNode sound s h
  · exact plain_crosses kind rfl rfl h
  · exact wordStatement_crosses sound s alone (by simp [Token.isWord, kind]) h
  · exact expressionStatement_isNode sound s h

end AmdUnwrap.Grammar

namespace AmdUnwrap
open Reading Grammar

theorem descend_sound (depth : Nat) : Descent.Sound ⟨depth, descend depth⟩ := by
  induction depth with
  | zero =>
      intro s goal c c' n h
      simp [descend] at h
  | succ depth ih =>
      intro s goal c c' n h
      cases goal with
      | statement alone => exact statement_isNode ih s alone h
      | expression => exact expression_isNode ih s h
      | assignment => exact assignment_isNode ih s h
      | binary floor => exact binary_isNode ih s floor h
      | unary => exact unary_isNode ih s h
      | leftHand => exact leftHand_isNode ih s true h
      | callee => exact leftHand_isNode ih s false h
      | pattern => exact pattern_isNode ih s h

theorem programBody_reads {d : Descent} (sound : d.Sound) (s : Setting) {c c' : Cursor}
    {body : List Node} (h : programBody d s c = .ok (body, c')) :
    Reads c body c' ∧ c'.token.kind = .eof := by
  simp only [programBody, bind_ok] at h
  obtain ⟨opening, c₁, first, rest, c₂, later, t, c₃, now, h⟩ := h
  rw [← bind_pure Reading.current, current_bind, pure_ok] at now
  obtain ⟨rfl, rfl⟩ := now
  generalize kind : c₃.token.kind = k at h
  split at h
  · obtain ⟨rfl, rfl⟩ := pure_ok.mp h
    exact ⟨(prologue_areNodes sound s _ first).trans (statements_areNodes sound s later), kind⟩
  · simp at h

def Cursor.first (mode : Mode) (text : Text) : Cursor := ⟨mode, Token.first mode text, 0⟩

theorem readProgram_body {mode : Mode} {text : Text} {root : Node}
    (parsed : readProgram mode text = .ok root) :
    ∃ body c, root = .mk .program ⟨0, text.byteLength⟩ body ∧
      programBody ⟨depthBound text, descend (depthBound text)⟩ (inProgram mode)
        (.first mode text) = .ok (body, c) := by
  unfold readProgram at parsed
  dsimp only [bind, Except.bind] at parsed
  split at parsed
  · cases parsed
  split at parsed
  · cases parsed
  next read =>
    split at parsed
    · cases parsed
    · cases parsed
      exact ⟨_, _, rfl, read⟩

theorem readProgram_laid {mode : Mode} {text : Text} {root : Node}
    (parsed : readProgram mode text = .ok root) :
    ∃ body c, root = .mk .program ⟨0, text.byteLength⟩ body ∧
      Reads (.first mode text) body c ∧ c.token.kind = .eof := by
  obtain ⟨body, c, rfl, read⟩ := readProgram_body parsed
  obtain ⟨reads, ended⟩ := programBody_reads (descend_sound _) _ read
  exact ⟨body, c, rfl, reads, ended⟩

end AmdUnwrap
