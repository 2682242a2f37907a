import AmdUnwrap.Proofs.Syntax.Reading

namespace AmdUnwrap

/-- A slash read again as a regular expression, or a brace as the rest of a template. -/
def Token.Rereads (t u : Token) : Prop :=
  (t.isPunct .slash = true ∨ t.isPunct .slashAssign = true) ∧ u = t.asRegex ∨
    t.isPunct .rbrace = true ∧ u = t.asTemplate

/-- The cursor moves past tokens, some of them read again before. -/
inductive Passes : Cursor → List Token → Cursor → Prop where
  | stay {c : Cursor} : Passes c [] c
  | move {c c' : Cursor} {ts : List Token} :
      c.token.kind.isReal = true → Passes c.next ts c' → Passes c (c.token :: ts) c'
  | reread {c c' : Cursor} {t : Token} {ts : List Token} :
      c.token.Rereads t → Passes { c with token := t } ts c' → Passes c ts c'

namespace Passes

theorem trans {c c₁ c₂ : Cursor} {ts us : List Token} (first : Passes c ts c₁)
    (later : Passes c₁ us c₂) : Passes c (ts ++ us) c₂ := by
  induction first with
  | stay => exact later
  | move real _ ih => exact .move real (ih later)
  | reread again _ ih => exact .reread again (ih later)

theorem start_rereads {t u : Token} (again : t.Rereads u) : u.start = t.start := by
  rcases again with ⟨-, rfl⟩ | ⟨-, rfl⟩
  · unfold Token.asRegex
    split <;> rfl
  · unfold Token.asTemplate Token.scanTemplate
    dsimp only
    split <;> rfl

theorem start_eq {c c' : Cursor} {ts : List Token} (passes : Passes c ts c') (some : ts ≠ []) :
    (ts.head?.map (·.start.offset)).getD 0 = c.token.start.offset := by
  induction passes with
  | stay => exact absurd rfl some
  | move _ _ _ => rfl
  | reread again _ ih =>
      rw [ih some]
      exact congrArg Place.offset (start_rereads again)

theorem last_eq {c c' : Cursor} {ts : List Token} (passes : Passes c ts c') :
    c'.last = (ts.getLast?.map (·.stop.offset)).getD c.last := by
  induction passes with
  | stay => rfl
  | move _ passes ih =>
      rw [ih]
      rename_i c _ ts _
      cases h : ts.getLast? with
      | none =>
          rw [List.getLast?_eq_none_iff] at h
          simp [h, Cursor.next]
      | some t => simp [List.getLast?_cons, h]
  | reread _ _ ih => exact ih

theorem extent_eq {c c' : Cursor} {ts : List Token} (passes : Passes c ts c') (some : ts ≠ []) :
    Token.extent ts = ⟨c.token.start.offset, c'.last⟩ := by
  have last := passes.last_eq
  rw [List.getLast?_eq_some_getLast some] at last
  simp [Token.extent, passes.start_eq some, last, List.getLast?_eq_some_getLast some]

end Passes

/-- Between two cursors lie these nodes. -/
def Reads (c : Cursor) (nodes : List Node) (c' : Cursor) : Prop :=
  ∃ ts, Passes c ts c' ∧ Laid false ts nodes

/-- Between two cursors lie these nodes and one token at least. -/
def Crosses (c : Cursor) (nodes : List Node) (c' : Cursor) : Prop :=
  ∃ ts, ts ≠ [] ∧ Passes c ts c' ∧ Laid false ts nodes

namespace Reads

theorem stay {c : Cursor} : Reads c [] c := ⟨[], .stay, .nil⟩

theorem trans {c c₁ c₂ : Cursor} {ns ms : List Node} (first : Reads c ns c₁)
    (later : Reads c₁ ms c₂) : Reads c (ns ++ ms) c₂ := by
  obtain ⟨ts, passes, laid⟩ := first
  obtain ⟨us, passes', laid'⟩ := later
  exact ⟨ts ++ us, passes.trans passes', laid.append laid'⟩

theorem past {c c₁ c₂ : Cursor} {ns : List Node} (first : Reads c ns c₁)
    (later : Reads c₁ [] c₂) : Reads c ns c₂ := by
  simpa using first.trans later

theorem cross {c c₁ c₂ : Cursor} {ns ms : List Node} (first : Reads c ns c₁)
    (later : Crosses c₁ ms c₂) : Crosses c (ns ++ ms) c₂ := by
  obtain ⟨ts, passes, laid⟩ := first
  obtain ⟨us, some, passes', laid'⟩ := later
  exact ⟨ts ++ us, by simp [some], passes.trans passes', laid.append laid'⟩

theorem call {c c₁ : Cursor} {children : List Node} (before : Reads c children c₁)
    (closed : c₁.token.isPunct .rparen = true) :
    Crosses c [.mk .call ⟨c.token.start.offset, c₁.next.last⟩ children] c₁.next := by
  obtain ⟨ts, passes, laid⟩ := before
  have separates := Token.separates_of_isPunct closed (b := false)
  have path := passes.trans (.move (Token.isReal_of_separates separates) .stay)
  have some : ts ++ [c₁.token] ≠ [] := by simp
  have whole := Laid.call laid separates (Laid.nil (b := false))
  rw [path.extent_eq some, List.append_nil] at whole
  exact ⟨_, some, path, whole⟩

theorem returning {c c₁ : Cursor} {children : List Node} (after : Reads c.next children c₁)
    (word : c.token.isWord .returnWord = true) :
    Crosses c [.mk .returnStatement ⟨c.token.start.offset, c₁.last⟩ children] c₁ := by
  obtain ⟨ts, passes, laid⟩ := after
  have separates := Token.separates_of_isWord word (b := false)
  have path := Passes.move (Token.isReal_of_separates separates) passes
  have whole := Laid.returning word laid (Laid.nil (b := false))
  rw [path.extent_eq (by simp), List.append_nil] at whole
  exact ⟨_, by simp, path, whole⟩

end Reads

namespace Crosses

theorem reads {c c' : Cursor} {ns : List Node} (crosses : Crosses c ns c') : Reads c ns c' := by
  obtain ⟨ts, -, passes, laid⟩ := crosses
  exact ⟨ts, passes, laid⟩

theorem trans {c c₁ c₂ : Cursor} {ns ms : List Node} (first : Crosses c ns c₁)
    (later : Reads c₁ ms c₂) : Crosses c (ns ++ ms) c₂ := by
  obtain ⟨ts, some, passes, laid⟩ := first
  obtain ⟨us, passes', laid'⟩ := later
  exact ⟨ts ++ us, by simp [some], passes.trans passes', laid.append laid'⟩

theorem past {c c₁ c₂ : Cursor} {ns : List Node} (first : Crosses c ns c₁)
    (later : Reads c₁ [] c₂) : Crosses c ns c₂ := by
  simpa using first.trans later

theorem skip {c : Cursor} {k : Token.Kind} (kind : c.token.kind = k)
    (separates : k.separates false = true) : Crosses c [] c.next := by
  subst kind
  exact ⟨[c.token], by simp, .move (Token.isReal_of_separates separates) .stay,
    .gap separates .nil⟩

theorem skip_punct {c : Cursor} {sign : Punct} (h : c.token.isPunct sign = true) :
    Crosses c [] c.next := skip rfl (Token.separates_of_isPunct h)

theorem skip_word {c : Cursor} {keyword : Keyword} (h : c.token.isWord keyword = true) :
    Crosses c [] c.next := skip rfl (Token.separates_of_isWord h)

theorem leaf {c : Cursor} {kind : Node.Kind} (spells : kind.spells c.token)
    (real : c.token.kind.isReal = true) :
    Crosses c [.mk kind ⟨c.token.start.offset, c.next.last⟩ []] c.next :=
  ⟨[c.token], by simp, .move real .stay, .leaf spells .nil⟩

theorem finish {c c' : Cursor} {kind : Node.Kind} {children : List Node}
    (crosses : Crosses c children c') (composite : kind.isComposite = true) :
    Crosses c [.mk kind ⟨c.token.start.offset, c'.last⟩ children] c' := by
  obtain ⟨ts, some, passes, laid⟩ := crosses
  have whole := Laid.node composite some laid.weaken (Laid.nil (b := false))
  rw [passes.extent_eq some, List.append_nil] at whole
  exact ⟨ts, some, passes, whole⟩

end Crosses
end AmdUnwrap
