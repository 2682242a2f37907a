import AmdUnwrap.Proofs.Syntax.Grammar.Class
import AmdUnwrap.Proofs.Syntax.Grammar.Literal
import AmdUnwrap.Syntax.Grammar.Expression

namespace AmdUnwrap.Grammar
open Reading

variable {d : Descent}

theorem plain_crosses {kind : Node.Kind} {c c' : Cursor} {n : Node} {k : Token.Kind}
    (current : c.token.kind = k) (separates : k.separates false = true)
    (composite : kind.isComposite = true) (h : plain kind c = .ok (n, c')) : Crosses c [n] c' := by
  simp [plain] at h
  obtain ⟨rfl, rfl⟩ := h
  exact (Crosses.skip current separates).finish composite

theorem parenthesized_isNode (sound : d.Sound) (s : Setting) : (parenthesized d s).IsNode := by
  intro c c' n h
  simp [parenthesized] at h
  obtain ⟨opening, inner, c₁, first, close, rfl, rfl⟩ := h
  exact ((Crosses.skip_punct opening).trans
    ((sound _ _ first).reads.past (Crosses.skip_punct close).reads)).finish rfl

theorem regex_crosses {c c' : Cursor} {n : Node}
    (slash : c.token.isPunct .slash = true ∨ c.token.isPunct .slashAssign = true)
    (h : regex c = .ok (n, c')) : Crosses c [n] c' := by
  simp only [regex, reread_bind, current_bind] at h
  have again : c.token.Rereads c.token.asRegex := .inl ⟨slash, rfl⟩
  generalize kind : c.token.asRegex.kind = k at h
  split at h
  · obtain ⟨ts, some, passes, laid⟩ := plain_crosses (k := .regex) kind rfl rfl h
    exact ⟨ts, some, .reread again passes, laid⟩
  · simp at h

theorem primary_isNode (sound : d.Sound) (s : Setting) : (primary d s).IsNode := by
  intro c c' n h
  simp only [primary, current_bind] at h
  generalize kind : c.token.kind = k at h
  split at h
  · exact plain_crosses kind rfl rfl h
  · exact plain_crosses kind rfl rfl h
  · exact plain_crosses kind rfl rfl h
  · exact plain_crosses kind rfl rfl h
  · exact functionExpression_isNode sound s h
  · exact classDefinition_isNode sound s true h
  · simp only [ahead_bind, ite_run] at h
    split at h
    · exact functionExpression_isNode sound s h
    · exact reference_isNode s h
  · exact reference_isNode s h
  · exact plain_crosses kind rfl rfl h
  · exact stringLiteral_isNode h
  · exact template_isNode sound s false h
  · exact array_isNode sound s h
  · exact object_isNode sound s h
  · exact parenthesized_isNode sound s h
  · exact regex_crosses (.inl (by simp [Token.isPunct, kind])) h
  · exact regex_crosses (.inr (by simp [Token.isPunct, kind])) h
  · simp at h

theorem parent_crosses {c c' : Cursor} {n : Node} {k : Token.Kind} (current : c.token.kind = k)
    (separates : k.separates false = true) (h : parent c = .ok (n, c')) : Crosses c [n] c' := by
  simp only [parent, bind_ok] at h
  obtain ⟨node, c₁, first, t, c₂, now, h⟩ := h
  rw [← bind_pure Reading.current, current_bind, pure_ok] at now
  obtain ⟨rfl, rfl⟩ := now
  have read := plain_crosses current separates rfl first
  generalize c₂.token.kind = k at h
  split at h
  all_goals
    simp at h
  all_goals
    obtain ⟨rfl, rfl⟩ := h
    exact read

theorem argumentList_closes (sound : d.Sound) (s : Setting) {c c' : Cursor} {ns : List Node}
    (h : argumentList d s c = .ok (ns, c')) :
    ∃ c₁, Crosses c ns c₁ ∧ c₁.token.isPunct .rparen = true ∧ c' = c₁.next := by
  simp only [argumentList, expect_bind, ite_ok, refuse_ok, and_false, or_false, bind_ok,
    pure_ok] at h
  obtain ⟨opening, ⟨items, trailing⟩, c₁, inner, rfl, rfl⟩ := h
  obtain ⟨c₂, reads, closed, rfl⟩ := separated_closes (element_isNode sound s) _ _ inner
  exact ⟨c₂, (Crosses.skip_punct opening).trans reads, closed, rfl⟩

theorem argumentList_crosses (sound : d.Sound) (s : Setting) {c c' : Cursor} {ns : List Node}
    (h : argumentList d s c = .ok (ns, c')) : Crosses c ns c' := by
  obtain ⟨c₁, reads, closed, rfl⟩ := argumentList_closes sound s h
  exact reads.past (Crosses.skip_punct closed).reads

theorem importOptions_reads (sound : d.Sound) (s t : Setting) {start : Nat} {c c' : Cursor}
    {n : Node} (h : (do
      expect .lparen
      let source ← d.read s .assignment
      let options ←
        if (← accept .comma) && !(← sees .rparen) then
          let options ← d.read t .assignment
          discard <| accept .comma
          pure [options]
        else pure []
      expect .rparen
      finish start .importCall (source :: options)) c = .ok (n, c')) :
    ∃ parts, Crosses c parts c' ∧ n = .mk .importCall ⟨start, c'.last⟩ parts := by
  rw [expect_bind] at h
  split at h
  next opening =>
    obtain ⟨source, c₁, first, h⟩ := bind_ok.mp h
    have before := (Crosses.skip_punct opening).trans (sound _ _ first).reads
    rw [accept_bind] at h
    split at h
    next comma =>
      have passed := before.past (Crosses.skip_punct comma).reads
      simp only [sees_bind, Bool.true_and, ite_run] at h
      split at h
      · simp only [bind_ok, discard_bind, pure_run, expect_bind] at h
        obtain ⟨options, c₂, second, _, c₃, later, h⟩ := h
        simp at h
        obtain ⟨closed, rfl, rfl⟩ := h
        exact ⟨_, (passed.trans ((sound _ _ second).reads.past (accept_skips later))).past
          (Crosses.skip_punct closed).reads, rfl⟩
      · simp at h
        obtain ⟨closed, rfl, rfl⟩ := h
        exact ⟨_, passed.past (Crosses.skip_punct closed).reads, rfl⟩
    · simp at h
      obtain ⟨closed, rfl, rfl⟩ := h
      exact ⟨_, before.past (Crosses.skip_punct closed).reads, rfl⟩
  · simp at h

theorem importExpression_isNode (sound : d.Sound) (s : Setting) (calls : Bool) :
    (importExpression d s calls).IsNode := by
  intro c c' n h
  simp only [importExpression, here_bind, expectWord_bind] at h
  split at h
  next word =>
    have opening := Crosses.skip_word word
    rw [accept_bind] at h
    split at h
    next dot =>
      simp at h
      obtain ⟨target, rfl, rfl⟩ := h
      exact (opening.past ((Crosses.skip_punct dot).reads.past
        (Crosses.skip_word target).reads)).finish rfl
    · simp only [Bool.false_eq_true, if_false, ite_run] at h
      split at h
      · simp at h
      · obtain ⟨parts, crosses, rfl⟩ := importOptions_reads sound _ _ h
        exact (opening.trans crosses.reads).finish rfl
  · simp at h

theorem construct_isNode (sound : d.Sound) (s : Setting) : (construct d s).IsNode := by
  intro c c' n h
  simp only [construct, here_bind, expectWord_bind] at h
  split at h
  next word =>
    have opening := Crosses.skip_word word
    rw [accept_bind] at h
    split at h
    next dot =>
      simp at h
      obtain ⟨target, rfl, rfl⟩ := h
      exact (opening.past ((Crosses.skip_punct dot).reads.past
        (Crosses.skip_word target).reads)).finish rfl
    · simp only [Bool.false_eq_true, if_false, bind_ok, sees_bind, ite_run, ite_ok, refuse_bind,
        refuse_ok, and_false, false_or, pure_ok, finish_ok] at h
      obtain ⟨callee, c₁, first, -, ⟨-, arguments, c₂, later, rfl, rfl⟩ |
        ⟨-, _, _, ⟨rfl, rfl⟩, rfl, rfl⟩⟩ := h
      · exact (opening.trans ((sound _ _ first).reads.trans
          (argumentList_crosses sound s later).reads)).finish rfl
      · exact (opening.trans (sound _ _ first).reads).finish rfl
  · simp at h

theorem head_isNode (sound : d.Sound) (s : Setting) (calls : Bool) :
    (head d s calls).IsNode := by
  intro c c' n h
  simp only [head, current_bind] at h
  generalize kind : c.token.kind = k at h
  split at h
  · exact construct_isNode sound s h
  · exact parent_crosses kind rfl h
  · exact importExpression_isNode sound s calls h
  · exact primary_isNode sound s h

theorem subscript_crosses (sound : d.Sound) (s : Setting) {c c₁ c₂ : Cursor} {target n : Node}
    (before : Reads c [target] c₁)
    (h : subscript d s c.token.start.offset target c₁ = .ok (n, c₂)) : Crosses c [n] c₂ := by
  simp [subscript] at h
  obtain ⟨opening, key, c₃, first, closed, rfl, rfl⟩ := h
  exact (before.cross ((Crosses.skip_punct opening).trans
    ((sound _ _ first).reads.past (Crosses.skip_punct closed).reads))).finish rfl

theorem call_crosses (sound : d.Sound) (s : Setting) {c c₁ c₂ c₃ : Cursor} {target n : Node}
    {arguments : List Node} (before : Reads c [target] c₁)
    (inner : argumentList d s c₁ = .ok (arguments, c₂))
    (h : Reading.finish c.token.start.offset .call (target :: arguments) c₂ = .ok (n, c₃)) :
    Crosses c [n] c₃ := by
  obtain ⟨c₄, reads, closed, rfl⟩ := argumentList_closes sound s inner
  obtain ⟨rfl, rfl⟩ := finish_ok.mp h
  exact (before.trans reads.reads).call closed

theorem optionalLink_crosses (sound : d.Sound) (s : Setting) {c c₁ c₂ : Cursor}
    {target n : Node} (before : Reads c [target] c₁)
    (h : optionalLink d s c.token.start.offset target c₁ = .ok (n, c₂)) : Crosses c [n] c₂ := by
  simp only [optionalLink, current_bind] at h
  generalize kind : c₁.token.kind = k at h
  split at h
  · obtain ⟨arguments, c₃, inner, h⟩ := bind_ok.mp h
    exact call_crosses sound s before inner h
  · exact subscript_crosses sound s before h
  · simp at h
  · simp only [bind_ok, finish_ok] at h
    obtain ⟨key, c₃, first, rfl, rfl⟩ := h
    exact (before.cross (memberName_isNode first)).finish rfl

theorem link_crosses (sound : d.Sound) (s : Setting) {calls : Bool} {c c₁ c₂ : Cursor}
    {state next : Node × Bool} (before : Crosses c [state.1] c₁)
    (h : link d s c.token.start.offset calls state c₁ = .ok (some next, c₂)) :
    Crosses c [next.1] c₂ := by
  obtain ⟨target, chained⟩ := state
  simp only [link, current_bind] at h
  generalize kind : c₁.token.kind = k at h
  split at h
  · have dot := Crosses.skip kind rfl
    simp only [discard_bind, move_bind, bind_ok, finish_bind, pure_ok, Option.some.injEq] at h
    obtain ⟨key, c₃, first, rfl, rfl⟩ := h
    exact (before.trans (dot.trans (memberName_isNode first).reads).reads).finish rfl
  · simp only [bind_ok, pure_ok, Option.some.injEq] at h
    obtain ⟨n, c₃, inner, rfl, rfl⟩ := h
    exact subscript_crosses sound s before.reads inner
  · have sign := Crosses.skip kind rfl
    cases calls with
    | false => simp at h
    | true =>
        simp only [Bool.not_true, Bool.false_eq_true, if_false, discard_bind, move_bind, bind_ok,
          pure_ok, Option.some.injEq] at h
        obtain ⟨n, c₃, inner, rfl, rfl⟩ := h
        exact optionalLink_crosses sound s (before.reads.past sign.reads) inner
  · cases calls with
    | false => simp at h
    | true =>
        simp only [Bool.not_true, Bool.false_eq_true, if_false, bind_ok, pure_ok,
          Option.some.injEq] at h
        obtain ⟨arguments, c₃, inner, n, c₄, finished, rfl, rfl⟩ := h
        exact call_crosses sound s before.reads inner finished
  · cases chained with
    | true => simp at h
    | false =>
        simp only [Bool.false_eq_true, if_false, bind_ok, finish_bind, pure_ok,
          Option.some.injEq] at h
        obtain ⟨quasi, c₃, first, rfl, rfl⟩ := h
        exact (before.trans (template_isNode sound s true first).reads).finish rfl
  · simp at h

theorem link_stays {s : Setting} {start : Nat} {calls : Bool} {state : Node × Bool}
    {c c' : Cursor} (h : link d s start calls state c = .ok (none, c')) : c' = c := by
  obtain ⟨target, chained⟩ := state
  simp only [link, current_bind] at h
  generalize c.token.kind = k at h
  split at h
  · simp at h
  · simp at h
  · cases calls with
    | false => exact (pure_ok.mp h).2
    | true => simp at h
  · cases calls with
    | false => exact (pure_ok.mp h).2
    | true => simp at h
  · cases chained <;> simp at h
  · exact (pure_ok.mp h).2

theorem leftHand_isNode (sound : d.Sound) (s : Setting) (calls : Bool) :
    (leftHand d s calls).IsNode := by
  intro c c' n h
  simp only [leftHand, here_bind, bind_ok] at h
  obtain ⟨base, c₁, first, ⟨target, chained⟩, c₂, links, h⟩ := h
  have whole : Crosses c [target] c₂ := by
    refine iterate_keeps (P := fun state c₁ => Crosses c [state.1] c₁) ?_ ?_ _ ?_ links
    · intro state next a a' before step
      exact link_crosses sound s before step
    · intro state a a' before stop
      obtain rfl := link_stays stop
      exact before
    · exact head_isNode sound s calls first
  simp only [ite_run, ite_ok, finish_ok, pure_ok] at h
  rcases h with ⟨-, rfl, rfl⟩ | ⟨-, rfl, rfl⟩
  · exact whole.finish rfl
  · exact whole

theorem postfixed_isNode (sound : d.Sound) (s : Setting) : (postfixed d s).IsNode := by
  intro c c' n h
  simp only [postfixed, here_bind, bind_ok] at h
  obtain ⟨target, c₁, first, t, c₂, now, h⟩ := h
  rw [← bind_pure Reading.current, current_bind, pure_ok] at now
  obtain ⟨rfl, rfl⟩ := now
  have whole := leftHand_isNode sound s true first
  rw [ite_run] at h
  split at h
  next sign =>
    simp only [discard_bind, move_bind, finish_ok] at h
    obtain ⟨rfl, rfl⟩ := h
    rw [Bool.and_eq_true, Bool.or_eq_true] at sign
    rcases sign with ⟨-, sign | sign⟩
    · exact (whole.past (Crosses.skip_punct sign).reads).finish rfl
    · exact (whole.past (Crosses.skip_punct sign).reads).finish rfl
  · obtain ⟨rfl, rfl⟩ := pure_ok.mp h
    exact whole

theorem prefixed_crosses (sound : d.Sound) (s : Setting) {kind : Node.Kind} {c c' : Cursor}
    {n : Node} (sign : Crosses c [] c.next) (composite : kind.isComposite = true)
    (h : (do
      discard move
      let operand ← d.read s .unary
      finish c.token.start.offset kind [operand]) c = .ok (n, c')) : Crosses c [n] c' := by
  simp only [discard_bind, move_bind, bind_ok, finish_ok] at h
  obtain ⟨operand, c₁, first, rfl, rfl⟩ := h
  exact (sign.trans (sound _ _ first).reads).finish composite

theorem unary_isNode (sound : d.Sound) (s : Setting) : (unary d s).IsNode := by
  intro c c' n h
  simp only [unary, current_bind] at h
  generalize kind : c.token.kind = k at h
  split at h
  · exact prefixed_crosses sound s (.skip kind rfl) rfl h
  · exact prefixed_crosses sound s (.skip kind rfl) rfl h
  · exact prefixed_crosses sound s (.skip kind rfl) rfl h
  · exact prefixed_crosses sound s (.skip kind rfl) rfl h
  · exact prefixed_crosses sound s (.skip kind rfl) rfl h
  · exact prefixed_crosses sound s (.skip kind rfl) rfl h
  · rw [ite_run] at h
    split at h
    · exact prefixed_crosses sound s (.skip kind rfl) rfl h
    rw [ite_run] at h
    split at h
    · exact prefixed_crosses sound s (.skip kind rfl) rfl h
    · exact postfixed_isNode sound s h
  · exact postfixed_isNode sound s h

theorem operator_separates {s : Setting} {t : Token} {strength : Nat} {kind : Node.Kind}
    (found : operator? s t = some (strength, kind)) :
    t.kind.separates false = true ∧ kind.isComposite = true := by
  unfold operator? at found
  split at found
  next sign same =>
    obtain ⟨n, -, same'⟩ := Option.map_eq_some_iff.mp found
    rw [same]
    refine ⟨rfl, ?_⟩
    split at same' <;> cases same' <;> rfl
  next same =>
    cases found
    exact ⟨same ▸ rfl, rfl⟩
  next same =>
    split at found
    · cases found
      exact ⟨same ▸ rfl, rfl⟩
    · cases found
  · cases found

theorem binaryStep_crosses (sound : d.Sound) (s : Setting) {floor : Nat} {c c₁ c₂ : Cursor}
    {left n : Node} (before : Crosses c [left] c₁)
    (h : binaryStep d s c.token.start.offset floor left c₁ = .ok (some n, c₂)) :
    Crosses c [n] c₂ := by
  simp only [binaryStep, current_bind] at h
  cases found : operator? s c₁.token with
  | none => simp [found] at h
  | some op =>
      obtain ⟨strength, kind⟩ := op
      obtain ⟨separates, composite⟩ := operator_separates found
      simp only [found, ite_run, ite_ok, pure_ok, reduceCtorEq, false_and, and_false, false_or,
        discard_bind, move_bind, bind_ok, finish_bind, Option.some.injEq] at h
      obtain ⟨-, right, c₃, first, rfl, rfl⟩ := h
      exact (before.trans ((Crosses.skip rfl separates).trans
        (sound _ _ first).reads).reads).finish composite

theorem binaryStep_stays {s : Setting} {start floor : Nat} {left : Node} {c c' : Cursor}
    (h : binaryStep d s start floor left c = .ok (none, c')) : c' = c := by
  simp only [binaryStep, current_bind] at h
  cases found : operator? s c.token with
  | none =>
      rw [found] at h
      exact (pure_ok.mp h).2
  | some op =>
      simp [found, ite_ok] at h
      exact h.2

theorem operand_isNode (sound : d.Sound) (s : Setting) (floor : Nat) :
    (operand d s floor).IsNode := by
  intro c c' n h
  simp only [operand, current_bind] at h
  generalize kind : c.token.kind = k at h
  split at h
  · rw [ahead_bind, ite_run] at h
    split at h
    · exact plain_crosses kind rfl rfl h
    · simp at h
  · exact unary_isNode sound s h

theorem binary_isNode (sound : d.Sound) (s : Setting) (floor : Nat) :
    (binary d s floor).IsNode := by
  intro c c' n h
  simp only [binary, here_bind, bind_ok] at h
  obtain ⟨left, c₁, first, steps⟩ := h
  refine iterate_keeps (P := fun n c₁ => Crosses c [n] c₁) ?_ ?_ _ ?_ steps
  · intro left n a a' before step
    exact binaryStep_crosses sound s before step
  · intro left a a' before stop
    obtain rfl := binaryStep_stays stop
    exact before
  · exact operand_isNode sound s floor first

theorem conditional_isNode (sound : d.Sound) (s : Setting) : (conditional d s).IsNode := by
  intro c c' n h
  simp only [conditional, here_bind, bind_ok, accept_bind] at h
  obtain ⟨test, c₁, first, h⟩ := h
  have before := binary_isNode sound s 0 first
  split at h
  next question =>
    simp at h
    obtain ⟨yes, c₂, second, colon, no, third, rfl⟩ := h
    have branches := (sound _ _ second).reads.trans
      ((Crosses.skip_punct colon).reads.trans (sound _ _ third).reads)
    exact (before.trans ((Crosses.skip_punct question).reads.trans branches)).finish rfl
  · simp at h
    obtain ⟨rfl, rfl⟩ := h
    exact before

theorem yieldExpression_isNode (sound : d.Sound) (s : Setting) :
    (yieldExpression d s).IsNode := by
  intro c c' n h
  simp only [yieldExpression, here_bind, expectWord_bind] at h
  split at h
  next word =>
    have opening := Crosses.skip_word word
    simp only [current_bind, ite_run, pure_run, bind_ok, ite_ok, finish_ok] at h
    rcases h with ⟨-, ⟨-, rfl, rfl⟩ | ⟨-, value, c₂, first, rfl, rfl⟩⟩ |
      ⟨-, star, c₁, delegates, ⟨-, rfl, rfl⟩ | ⟨-, value, c₂, first, rfl, rfl⟩⟩
    · exact opening.finish rfl
    · exact (opening.trans (sound _ _ first).reads).finish rfl
    · exact (opening.past (accept_skips delegates)).finish rfl
    · exact ((opening.past (accept_skips delegates)).trans (sound _ _ first).reads).finish rfl
  · simp at h

theorem assignmentRest_crosses (sound : d.Sound) (s : Setting) {c c₁ c₂ : Cursor}
    {target n : Node} (before : Crosses c [target] c₁)
    (h : assignmentRest d s c.token.start.offset target c₁ = .ok (n, c₂)) : Crosses c [n] c₂ := by
  simp only [assignmentRest, current_bind] at h
  generalize kind : c₁.token.kind = k at h
  split at h
  · simp only [ite_run, ite_ok, discard_bind, move_bind, bind_ok, finish_ok, pure_ok] at h
    rcases h with ⟨-, value, c₃, first, rfl, rfl⟩ | ⟨-, rfl, rfl⟩
    · exact (before.trans ((Crosses.skip kind rfl).trans
        (sound _ _ first).reads).reads).finish rfl
    · exact before
  · obtain ⟨rfl, rfl⟩ := pure_ok.mp h
    exact before

theorem arrowOrRest_crosses (sound : d.Sound) (s : Setting) (h : (do
    match ← arrowFunction? d s with
    | some arrow => return arrow
    | none => assignmentRest d s c.token.start.offset (← conditional d s)) c = .ok (n, c')) :
    Crosses c [n] c' := by
  obtain ⟨o, c₁, arrow, h⟩ := bind_ok.mp h
  cases o with
  | some found =>
      obtain ⟨rfl, rfl⟩ := pure_ok.mp h
      exact arrowFunction_crosses sound s arrow
  | none =>
      obtain rfl := arrowFunction_stays arrow
      obtain ⟨target, c₂, first, rest⟩ := bind_ok.mp h
      exact assignmentRest_crosses sound s (conditional_isNode sound s first) rest

theorem assignment_isNode (sound : d.Sound) (s : Setting) : (assignment d s).IsNode := by
  intro c c' n h
  rw [assignment, here_bind, seesWord_bind, ite_run] at h
  split at h
  · exact yieldExpression_isNode sound s h
  · exact arrowOrRest_crosses sound s h

theorem expression_isNode (sound : d.Sound) (s : Setting) : (expression d s).IsNode := by
  intro c c' n h
  simp only [expression, here_bind, bind_ok] at h
  obtain ⟨first, c₁, one, rest, c₂, others, h⟩ := h
  have before := sound _ _ one
  have after : Reads c₁ rest c₂ := by
    refine many_areNodes ?_ ?_ _ others
    · intro a a' n h
      rw [accept_bind] at h
      split at h
      next comma =>
        simp at h
        exact (Crosses.skip_punct comma).reads.trans (sound _ _ h).reads
      · simp at h
    · intro a a' h
      simp at h
      exact h.2 ▸ .stay
  simp only [ite_run, ite_ok, pure_ok, finish_ok] at h
  rcases h with ⟨empty, rfl, rfl⟩ | ⟨-, rfl, rfl⟩
  · rw [List.isEmpty_iff] at empty
    subst empty
    exact before.past after
  · exact (before.trans after).finish rfl

end AmdUnwrap.Grammar
