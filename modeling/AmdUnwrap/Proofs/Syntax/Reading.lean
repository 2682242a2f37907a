import AmdUnwrap.Proofs.Syntax.Laid

/-!
What each step of a reading does to the cursor. Simplifying with these equations runs a reading
until it comes to one that is nested in it.
-/

namespace AmdUnwrap

def Cursor.next (c : Cursor) : Cursor :=
  { c with token := Token.next c.mode c.token.stop, last := c.token.stop.offset }

namespace Reading

variable {α β : Type} {c c' : Cursor}

@[simp] theorem bind_ok {r : Reading α} {f : α → Reading β} {b : β} :
    (r >>= f) c = .ok (b, c') ↔ ∃ a c₁, r c = .ok (a, c₁) ∧ f a c₁ = .ok (b, c') := by
  change (Except.bind (r c) fun p => f p.1 p.2) = _ ↔ _
  cases result : r c with
  | error e => simp [Except.bind]
  | ok p =>
      obtain ⟨a, c₁⟩ := p
      simp only [Except.bind, Except.ok.injEq, Prod.mk.injEq]
      constructor
      · intro h
        exact ⟨a, c₁, ⟨rfl, rfl⟩, h⟩
      · rintro ⟨_, _, ⟨rfl, rfl⟩, h⟩
        exact h

@[simp] theorem pure_ok {a b : α} : (pure a : Reading α) c = .ok (b, c') ↔ b = a ∧ c' = c := by
  change Except.ok (a, c) = _ ↔ _
  simp [eq_comm]

@[simp] theorem map_ok {f : α → β} {r : Reading α} {b : β} :
    (f <$> r) c = .ok (b, c') ↔ ∃ a, b = f a ∧ r c = .ok (a, c') := by
  rw [← bind_pure_comp, bind_ok]
  constructor
  · rintro ⟨a, c₁, h, result⟩
    obtain ⟨rfl, rfl⟩ := pure_ok.mp result
    exact ⟨a, rfl, h⟩
  · rintro ⟨a, rfl, h⟩
    exact ⟨a, c', h, pure_ok.mpr ⟨rfl, rfl⟩⟩

@[simp] theorem pure_run (a : α) (f : α → Reading β) : (pure a >>= f) c = f a c := rfl

@[simp] theorem discard_bind (r : Reading α) (f : Unit → Reading β) :
    discard r >>= f = r >>= fun _ => f () := by
  rw [show (discard r : Reading Unit) = (fun _ => ()) <$> r from rfl, ← bind_pure_comp,
    bind_assoc]
  rfl

@[simp] theorem discard_ok {r : Reading α} {u : Unit} :
    (discard r : Reading Unit) c = .ok (u, c') ↔ ∃ a, r c = .ok (a, c') := by
  rw [show (discard r : Reading Unit) = (fun _ => ()) <$> r from rfl, map_ok]
  simp

@[simp] theorem ite_run {p : Prop} [Decidable p] (r s : Reading α) :
    (if p then r else s) c = if p then r c else s c := by
  split <;> rfl

@[simp] theorem ite_ok {p : Prop} [Decidable p] {x y : Except SyntaxError (α × Cursor)} {a : α} :
    (if p then x else y) = .ok (a, c') ↔
      p ∧ x = .ok (a, c') ∨ ¬p ∧ y = .ok (a, c') := by
  split <;> simp [*]

@[simp] theorem fail_ok {cause : SyntaxError.Cause} {offset : Nat} {a : α} :
    (fail cause offset : Reading α) c = .ok (a, c') ↔ False := by
  constructor
  · intro h
    cases h
  · exact False.elim

@[simp] theorem fail_bind (cause : SyntaxError.Cause) (offset : Nat) (f : α → Reading β) :
    (fail cause offset >>= f) c = (fail cause offset : Reading β) c := rfl

@[simp] theorem current_bind (f : Token → Reading β) : (current >>= f) c = f c.token c := rfl

@[simp] theorem ahead_bind (f : Token → Reading β) : (ahead >>= f) c = f c.next.token c := rfl

theorem refuse_run : ∃ e, ∀ α : Type, (refuse : Reading α) c = .error e := by
  cases kind : c.token.kind <;>
    exact ⟨_, fun α => by rw [refuse, current_bind, kind]; rfl⟩

@[simp] theorem refuse_ok {a : α} : (refuse : Reading α) c = .ok (a, c') ↔ False := by
  obtain ⟨e, refused⟩ := refuse_run (c := c)
  simp [refused]

@[simp] theorem refuse_bind (f : α → Reading β) : (refuse >>= f) c = (refuse : Reading β) c := by
  obtain ⟨e, refused⟩ := refuse_run (c := c)
  change (Except.bind (refuse c) fun p => f p.1 p.2) = _
  rw [refused, refused]
  rfl

@[simp] theorem move_bind (f : Token → Reading β) : (move >>= f) c = f c.token c.next := rfl

@[simp] theorem reread_bind (g : Token → Token) (f : Unit → Reading β) :
    (reread g >>= f) c = f () { c with token := g c.token } := rfl

@[simp] theorem here_bind (f : Nat → Reading β) : (here >>= f) c = f c.token.start.offset c := rfl

@[simp] theorem finish_ok {start : Nat} {kind : Node.Kind} {children : List Node} {n : Node} :
    finish start kind children c = .ok (n, c') ↔
      n = .mk kind ⟨start, c.last⟩ children ∧ c' = c := by
  change Except.ok (Node.mk kind ⟨start, c.last⟩ children, c) = _ ↔ _
  simp [eq_comm]

@[simp] theorem finish_bind (start : Nat) (kind : Node.Kind) (children : List Node)
    (f : Node → Reading β) :
    (finish start kind children >>= f) c = f (.mk kind ⟨start, c.last⟩ children) c := rfl

@[simp] theorem sees_bind (sign : Punct) (f : Bool → Reading β) :
    (sees sign >>= f) c = f (c.token.isPunct sign) c := rfl

@[simp] theorem seesWord_bind (keyword : Keyword) (f : Bool → Reading β) :
    (seesWord keyword >>= f) c = f (c.token.isWord keyword) c := rfl

@[simp] theorem accept_bind (sign : Punct) (f : Bool → Reading β) :
    (accept sign >>= f) c = if c.token.isPunct sign then f true c.next else f false c := by
  rw [accept, bind_assoc, sees_bind]
  cases c.token.isPunct sign <;> rfl

@[simp] theorem acceptWord_bind (keyword : Keyword) (f : Bool → Reading β) :
    (acceptWord keyword >>= f) c = if c.token.isWord keyword then f true c.next else f false c := by
  rw [acceptWord, bind_assoc, seesWord_bind]
  cases c.token.isWord keyword <;> rfl

@[simp] theorem expect_bind (sign : Punct) (f : Unit → Reading β) :
    (expect sign >>= f) c =
      if c.token.isPunct sign then f () c.next else (refuse : Reading β) c := by
  rw [expect, bind_assoc, accept_bind]
  cases c.token.isPunct sign
  · exact refuse_bind f
  · rfl

@[simp] theorem expectWord_bind (keyword : Keyword) (f : Unit → Reading β) :
    (expectWord keyword >>= f) c =
      if c.token.isWord keyword then f () c.next else (refuse : Reading β) c := by
  rw [expectWord, bind_assoc, acceptWord_bind]
  cases c.token.isWord keyword
  · exact refuse_bind f
  · rfl

@[simp] theorem move_ok {t : Token} : move c = .ok (t, c') ↔ t = c.token ∧ c' = c.next := by
  change Except.ok (c.token, c.next) = _ ↔ _
  simp [eq_comm]

@[simp] theorem expect_ok {sign : Punct} {u : Unit} :
    expect sign c = .ok (u, c') ↔ c.token.isPunct sign = true ∧ c' = c.next := by
  have run := expect_bind sign (c := c) pure
  rw [bind_pure] at run
  rw [run, ite_ok, pure_ok, refuse_ok]
  simp

@[simp] theorem expectWord_ok {keyword : Keyword} {u : Unit} :
    expectWord keyword c = .ok (u, c') ↔ c.token.isWord keyword = true ∧ c' = c.next := by
  have run := expectWord_bind keyword (c := c) pure
  rw [bind_pure] at run
  rw [run, ite_ok, pure_ok, refuse_ok]
  simp

theorem attempt_some_ok {r : Reading α} {a : α} :
    attempt r c = .ok (some a, c') ↔ r c = .ok (a, c') := by
  unfold attempt
  cases r c with
  | error e => simp
  | ok p => simp [Prod.ext_iff]

theorem attempt_none_ok {r : Reading α} (h : attempt r c = .ok (none, c')) : c' = c := by
  unfold attempt at h
  cases result : r c <;> simp [result] at h
  exact h.symm

end Reading
end AmdUnwrap
