import AmdUnwrap.Proofs.Syntax.Repetition
import AmdUnwrap.Syntax.Grammar.Basic

/-!
Which nodes stand below which. What the grammar says of it is a condition on a node and its
children, and a rule for each way to combine readings carries it to the trees that they return.
-/

namespace AmdUnwrap

namespace Node

/-- The place of a node in the grammar. What may stand nearly anywhere, an expression or a part of
one, is plain. -/
inductive Role where
  | program
  | statement
  | clause
  | body
  | classBody
  | staticBlock
  | sequence
  | plain
  deriving DecidableEq, Repr

namespace Kind

def role : Kind → Role
  | .program => .program
  | .directive | .block | .emptyStatement | .expressionStatement | .ifStatement | .whileStatement
  | .doWhileStatement | .forStatement | .forInStatement | .forOfStatement _ | .continueStatement
  | .breakStatement | .returnStatement | .withStatement | .switchStatement | .labeledStatement
  | .throwStatement | .tryStatement | .debuggerStatement | .importDeclaration | .exportAll
  | .exportNamed | .exportDefault => .statement
  | .switchCase | .catchClause => .clause
  | .functionBody => .body
  | .classBody => .classBody
  | .staticBlock => .staticBlock
  | .sequence => .sequence
  | _ => .plain

def isFunction : Kind → Bool
  | .function _ _ | .arrow _ _ => true
  | _ => false

def admits (parent : Kind) : Role → Bool
  | .plain => true
  | .program => false
  | .statement =>
    match parent with
    | .program | .functionBody | .block | .staticBlock | .switchCase | .ifStatement
    | .whileStatement | .doWhileStatement | .forStatement | .forInStatement | .forOfStatement _
    | .withStatement | .labeledStatement | .tryStatement | .catchClause => true
    | _ => false
  | .clause =>
    match parent with
    | .switchStatement | .tryStatement => true
    | _ => false
  | .body => parent.isFunction
  | .classBody =>
    match parent with
    | .classDefinition => true
    | _ => false
  | .staticBlock =>
    match parent with
    | .classBody => true
    | _ => false
  | .sequence =>
    match parent with
    | .expressionStatement | .parenthesized | .ifStatement | .whileStatement | .doWhileStatement
    | .forStatement | .forInStatement | .forOfStatement _ | .withStatement | .switchStatement
    | .switchCase | .returnStatement | .throwStatement | .member | .template => true
    | _ => false

end Kind

def role (n : Node) : Role := n.kind.role

def conciseBody (value : Node) : Node :=
  mk .functionBody value.span [mk .expressionStatement value.span [value]]

/-- The body of a function is the last of its parts, and the only one that is no plain node. -/
def EndsInBody : Node → Prop
  | mk (.function _ _) _ parts | mk (.arrow _ false) _ parts =>
    ∃ heads span body, parts = heads ++ [mk .functionBody span body] ∧ ∀ n ∈ heads, n.role = .plain
  | mk (.arrow _ true) _ parts =>
    ∃ heads value, parts = heads ++ [conciseBody value] ∧ ∀ n ∈ heads, n.role = .plain
  | _ => True

/-- Every node of the tree has a role that its parent admits, and every function ends in its
body. -/
inductive WellFormed : Node → Prop where
  | mk {n : Node} : (∀ m ∈ n.children, n.kind.admits m.role = true) → n.EndsInBody →
      (∀ m ∈ n.children, WellFormed m) → WellFormed n

def Fits (parent : Kind) (n : Node) : Prop := n.WellFormed ∧ parent.admits n.role = true

def Plain (n : Node) : Prop := n.WellFormed ∧ n.role = .plain

def Valued (n : Node) : Prop := n.WellFormed ∧ (n.role = .plain ∨ n.role = .sequence)

def Listed (n : Node) : Prop := n.WellFormed ∧ (n.role = .plain ∨ n.role = .statement)

variable {parent kind : Kind} {span : Span} {n : Node} {children : List Node}

theorem Plain.fits (plain : n.Plain) : n.Fits parent := ⟨plain.1, by rw [plain.2]; rfl⟩

theorem Plain.valued (plain : n.Plain) : n.Valued := ⟨plain.1, .inl plain.2⟩

theorem Plain.listed (plain : n.Plain) : n.Listed := ⟨plain.1, .inl plain.2⟩

theorem Valued.fits (valued : n.Valued) (admits : parent.admits .sequence = true) :
    n.Fits parent := by
  obtain ⟨formed, plain | sequence⟩ := valued
  · exact Plain.fits ⟨formed, plain⟩
  · exact ⟨formed, sequence ▸ admits⟩

theorem Listed.fits (listed : n.Listed) (admits : parent.admits .statement = true) :
    n.Fits parent := by
  obtain ⟨formed, plain | statement⟩ := listed
  · exact Plain.fits ⟨formed, plain⟩
  · exact ⟨formed, statement ▸ admits⟩

theorem endsInBody_of_not_function (other : kind.isFunction = false) :
    (mk kind span children).EndsInBody := by
  cases kind <;> trivial

theorem wellFormed (other : kind.isFunction = false) (fit : ∀ n ∈ children, n.Fits kind) :
    (mk kind span children).WellFormed :=
  .mk (fun n member => (fit n member).2) (endsInBody_of_not_function other)
    fun n member => (fit n member).1

theorem plain (role : kind.role = .plain) (other : kind.isFunction = false)
    (fit : ∀ n ∈ children, n.Fits kind) : (mk kind span children).Plain :=
  ⟨wellFormed other fit, role⟩

theorem listed (role : kind.role = .statement) (fit : ∀ n ∈ children, n.Fits kind) :
    (mk kind span children).Listed := by
  refine ⟨wellFormed ?_ fit, .inr role⟩
  cases kind <;> first | rfl | cases role

theorem plain_function (kind : Kind) {heads : List Node} {body : Node}
    (braced : kind.isBraced = true)
    (fit : ∀ n ∈ heads, n.Plain) (isBody : body.WellFormed ∧ body.kind = .functionBody) :
    (mk kind span (heads ++ [body])).Plain := by
  obtain ⟨formed, isBody⟩ := isBody
  obtain ⟨_, bodySpan, statements⟩ := body
  cases isBody
  have ends : (mk kind span (heads ++ [mk .functionBody bodySpan statements])).EndsInBody := by
    cases kind with
    | function async generator => exact ⟨heads, bodySpan, statements, rfl, fun n h => (fit n h).2⟩
    | arrow async concise =>
        cases concise with
        | false => exact ⟨heads, bodySpan, statements, rfl, fun n h => (fit n h).2⟩
        | true => cases braced
    | _ => cases braced
  refine ⟨.mk ?_ ends ?_, ?_⟩
  · intro n member
    rcases List.mem_append.mp member with head | last
    · exact (Plain.fits (fit n head)).2
    · rw [List.mem_singleton.mp last]
      cases kind <;> first | rfl | cases braced
  · intro n member
    rcases List.mem_append.mp member with head | last
    · exact (fit n head).1
    · rw [List.mem_singleton.mp last]
      exact formed
  · cases kind <;> first | rfl | cases braced

theorem plain_concise {async : Bool} {heads : List Node} {value : Node}
    (fit : ∀ n ∈ heads, n.Plain) (plain : value.Plain) :
    (mk (.arrow async true) span (heads ++ [conciseBody value])).Plain := by
  have statement : (mk .expressionStatement value.span [value]).Fits .functionBody :=
    ⟨wellFormed rfl (List.forall_mem_singleton.mpr plain.fits), rfl⟩
  have body : (conciseBody value).WellFormed :=
    wellFormed rfl (List.forall_mem_singleton.mpr statement)
  refine ⟨.mk ?_ ⟨heads, value, rfl, fun n h => (fit n h).2⟩ ?_, rfl⟩
  · intro n member
    rcases List.mem_append.mp member with head | last
    · exact (Plain.fits (fit n head)).2
    · rw [List.mem_singleton.mp last]
      rfl
  · intro n member
    rcases List.mem_append.mp member with head | last
    · exact (fit n head).1
    · rw [List.mem_singleton.mp last]
      exact body

end Node

namespace Reading

variable {α β : Type} {P : α → Prop} {Q : β → Prop}

def Gives (r : Reading α) (P : α → Prop) : Prop :=
  ∀ (c c' : Cursor) (a : α), r c = .ok (a, c') → P a

namespace Gives

theorem pure {a : α} (holds : P a) : Gives (Pure.pure a) P := by
  intro c c' b h
  rw [(pure_ok.mp h).1]
  exact holds

theorem bind {r : Reading β} {f : β → Reading α} (first : Gives r Q)
    (later : ∀ b, Q b → Gives (f b) P) : Gives (r >>= f) P := by
  intro c c' a h
  obtain ⟨b, c₁, read, rest⟩ := bind_ok.mp h
  exact later b (first c c₁ b read) c₁ c' a rest

theorem after {r : Reading β} {f : β → Reading α} (later : ∀ b, Gives (f b) P) :
    Gives (r >>= f) P := by
  intro c c' a h
  obtain ⟨b, c₁, -, rest⟩ := bind_ok.mp h
  exact later b c₁ c' a rest

theorem mono {P' : α → Prop} {r : Reading α} (gives : Gives r P) (implies : ∀ a, P a → P' a) :
    Gives r P' := fun c c' a h => implies a (gives c c' a h)

theorem ite {p : Prop} [Decidable p] {r s : Reading α} (yes : Gives r P) (no : Gives s P) :
    Gives (if p then r else s) P := by
  split
  · exact yes
  · exact no

theorem either {p : Prop} [Decidable p] {r s : Reading β} {f : β → Reading α}
    (later : ∀ b, Gives (f b) P) : Gives (if p then r >>= f else s >>= f) P :=
  ite (after later) (after later)

theorem fail {cause : SyntaxError.Cause} {offset : Nat} : Gives (Reading.fail cause offset) P :=
  fun _ _ _ h => (fail_ok.mp h).elim

theorem refuse : Gives Reading.refuse P := fun _ _ _ h => (refuse_ok.mp h).elim

theorem finish {start : Nat} {kind : Node.Kind} {children : List Node} {P : Node → Prop}
    (holds : ∀ span, P (.mk kind span children)) :
    Gives (Reading.finish start kind children) P := by
  intro c c' n h
  rw [(finish_ok.mp h).1]
  exact holds _

theorem many {r : Reading (Option α)} (item : Gives r fun o => ∀ a, o = some a → P a)
    (bound : Nat) : Gives (Reading.many r bound) fun items => ∀ a ∈ items, P a := by
  induction bound with
  | zero => exact .pure nofun
  | succ bound ih =>
      refine .bind item fun o holds => ?_
      cases o with
      | none => exact .pure nofun
      | some a =>
          refine .bind ih fun rest others => ?_
          exact .pure (List.forall_mem_cons.mpr ⟨holds a rfl, others⟩)

theorem iterate {step : α → Reading (Option α)}
    (keeps : ∀ a, P a → Gives (step a) fun o => ∀ b, o = some b → P b) (bound : Nat) {a : α}
    (holds : P a) : Gives (Reading.iterate step bound a) P := by
  induction bound generalizing a with
  | zero => exact .pure holds
  | succ bound ih =>
      refine .bind (keeps a holds) fun o next => ?_
      cases o with
      | none => exact .pure holds
      | some b => exact ih (next b rfl)

theorem separated {item : Reading α} {close : Punct} (each : Gives item P) (bound : Nat) :
    Gives (Reading.separated item close bound) fun result => ∀ a ∈ result.1, P a := by
  induction bound with
  | zero => exact .refuse
  | succ bound ih =>
      refine .after fun closed => .ite (.pure nofun) (.bind each fun first holds => ?_)
      have one : ∀ a ∈ [first], P a := List.forall_mem_singleton.mpr holds
      refine .after fun comma => .ite (.after fun closed => .ite (.pure one) ?_)
        (.after fun _ => .pure one)
      refine .bind ih fun (rest, trailing) others => ?_
      exact .pure (List.forall_mem_cons.mpr ⟨holds, others⟩)

theorem attempt {r : Reading α} (gives : Gives r P) :
    Gives (Reading.attempt r) fun o => ∀ a, o = some a → P a := by
  intro c c' o h a same
  subst same
  exact gives c c' a (attempt_some_ok.mp h)

end Gives
end Reading

def Goal.Gets : Goal → Node → Prop
  | .statement _ => Node.Listed
  | .expression => Node.Valued
  | _ => Node.Plain

def Descent.Shapes (d : Descent) : Prop := ∀ s goal, (d.read s goal).Gives goal.Gets

end AmdUnwrap
