import AmdUnwrap.Proofs.Module
import AmdUnwrap.Proofs.Syntax.Shape.Statement

namespace AmdUnwrap
open Amd

namespace Node

/-- The nodes from the root of a tree down to a node, the nearest first. -/
inductive Reaches (root : Node) : List Node → Node → Prop where
  | top : Reaches root [] root
  | child {path : List Node} {n m : Node} : Reaches root path n → m ∈ n.children →
      Reaches root (n :: path) m

namespace WellFormed

variable {n m : Node}

theorem admits (formed : n.WellFormed) (member : m ∈ n.children) :
    n.kind.admits m.role = true := by
  cases formed with
  | mk admits _ _ => exact admits m member

theorem endsInBody (formed : n.WellFormed) : n.EndsInBody := by
  cases formed with
  | mk _ ends _ => exact ends

theorem child (formed : n.WellFormed) (member : m ∈ n.children) : m.WellFormed := by
  cases formed with
  | mk _ _ children => exact children m member

end WellFormed

theorem EndsInBody.last {function body : Node} (ends : function.EndsInBody)
    (isFunction : function.kind.isFunction = true) (member : body ∈ function.children)
    (isBody : body.kind = .functionBody) : ∃ heads, function.children = heads ++ [body] := by
  have alone {heads : List Node} {last : Node} (parts : function.children = heads ++ [last])
      (plain : ∀ n ∈ heads, n.role = .plain) : ∃ heads, function.children = heads ++ [body] := by
    rw [parts] at member
    rcases List.mem_append.mp member with head | same
    · have role := plain body head
      rw [Node.role, isBody] at role
      cases role
    · rw [List.mem_singleton.mp same]
      exact ⟨heads, parts⟩
  obtain ⟨kind, span, parts⟩ := function
  cases kind with
  | function async generator =>
      obtain ⟨heads, _, _, parts, plain⟩ := ends
      exact alone parts plain
  | arrow async concise =>
      cases concise with
      | false =>
          obtain ⟨heads, _, _, parts, plain⟩ := ends
          exact alone parts plain
      | true =>
          obtain ⟨heads, _, parts, plain⟩ := ends
          exact alone parts plain
  | _ => cases isFunction

namespace Reaches

variable {root n m : Node} {path : List Node}

theorem wellFormed (reaches : Reaches root path n) (formed : root.WellFormed) : n.WellFormed := by
  induction reaches with
  | top => exact formed
  | child _ member ih => exact ih.child member

theorem stands {text : Text} (reaches : Reaches root path n) (stands : root.Stands text)
    (nested : Nested text root.span.start root.children root.span.stop) :
    n.Stands text ∧ Nested text n.span.start n.children n.span.stop := by
  induction reaches with
  | top => exact ⟨stands, nested⟩
  | child _ member ih => exact ih.2.mem member

theorem trans {below : List Node} (upper : Reaches root path n) (lower : Reaches n below m) :
    Reaches root (below ++ path) m := by
  induction lower with
  | top => exact upper
  | child _ member ih => exact ih.child member

theorem parent (reaches : Reaches root (n :: path) m) :
    Reaches root path n ∧ m ∈ n.children := by
  cases reaches with
  | child above member => exact ⟨above, member⟩

theorem admits (reaches : Reaches root (n :: path) m) (formed : root.WellFormed) :
    n.kind.admits m.role = true := by
  obtain ⟨above, member⟩ := reaches.parent
  exact (above.wellFormed formed).admits member

theorem placed {mode : Mode} {text : Text} (reaches : Reaches root path n)
    (parsed : readProgram mode text = .ok root) :
    (n.kind ≠ .program → n.Stands text) ∧ Nested text n.span.start n.children n.span.stop := by
  induction reaches with
  | top =>
      obtain ⟨body, rfl, nested⟩ := readProgram_nested parsed
      exact ⟨fun other => absurd rfl other, nested⟩
  | child _ member ih =>
      obtain ⟨stands, nested⟩ := ih.2.mem member
      exact ⟨fun _ => stands, nested⟩

theorem of_suffix {above : List Node} (reaches : Reaches root path n)
    (suffix : m :: above <:+ n :: path) : Reaches root above m := by
  induction reaches with
  | top =>
      rcases List.suffix_cons_iff.mp suffix with same | short
      · cases same
        exact .top
      · cases List.suffix_nil.mp short
  | child upper member ih =>
      rcases List.suffix_cons_iff.mp suffix with same | short
      · cases same
        exact upper.child member
      · exact ih short

theorem root_suffix (reaches : Reaches root path n) : [root] <:+ n :: path := by
  induction reaches with
  | top => exact List.suffix_rfl
  | child _ _ ih => exact ih.trans (List.suffix_cons _ _)

theorem stop_lt_call {mode : Mode} {text : Text} {call : Node} {above : List Node}
    (reaches : Reaches root path n) (parsed : readProgram mode text = .ok root)
    (suffix : call :: above <:+ path) (isCall : call.kind = .call) :
    n.span.stop < call.span.stop := by
  induction reaches with
  | top => cases List.suffix_nil.mp suffix
  | @child path n m upper member ih =>
      obtain ⟨stands, nested⟩ := upper.placed parsed
      rcases List.suffix_cons_iff.mp suffix with same | short
      · cases same
        exact (stands (by rw [isCall]; nofun)).closed isCall m member
      · have inside := ih short
        have bounds := nested.bounds m member
        omega

theorem call_eq {mode : Mode} {text : Text} {first second : Node} {above above' : List Node}
    (reaches : Reaches root path n) (parsed : readProgram mode text = .ok root)
    (suffix : first :: above <:+ n :: path) (suffix' : second :: above' <:+ n :: path)
    (isCall : first.kind = .call) (isCall' : second.kind = .call)
    (same : first.span = second.span) : first :: above = second :: above' := by
  rcases List.suffix_or_suffix_of_suffix suffix suffix' with inner | inner
  · rcases List.suffix_cons_iff.mp inner with eq | short
    · exact eq
    · have lt := (reaches.of_suffix suffix').stop_lt_call parsed short isCall
      rw [same] at lt
      exact absurd lt (Nat.lt_irrefl _)
  · rcases List.suffix_cons_iff.mp inner with eq | short
    · exact eq.symm
    · have lt := (reaches.of_suffix suffix).stop_lt_call parsed short isCall'
      rw [same] at lt
      exact absurd lt (Nat.lt_irrefl _)

end Reaches

theorem reaches_unparenthesized (n : Node) : ∃ path, Reaches n path n.unparenthesized := by
  induction n using unparenthesized.induct with
  | case1 span inner ih =>
      obtain ⟨path, reaches⟩ := ih
      exact ⟨_, (Reaches.top.child (List.mem_singleton_self inner)).trans reaches⟩
  | case2 n other =>
      refine ⟨[], ?_⟩
      rw [unparenthesized]
      · exact .top
      · exact other

namespace Kind

variable {parent : Kind} {role : Role}

theorem role_of_admits_statement (admits : parent.admits .statement = true) :
    parent.role ≠ .plain := by
  cases parent <;> cases admits <;> rintro ⟨⟩

theorem isFunction_of_admits (plain : parent.role = .plain) (admits : parent.admits role = true)
    (part : role ≠ .plain) (value : role ≠ .sequence) (class_ : role ≠ .classBody) :
    role = .body ∧ parent.isFunction = true := by
  cases role with
  | body => exact ⟨rfl, admits⟩
  | plain => exact absurd rfl part
  | sequence => exact absurd rfl value
  | classBody => exact absurd rfl class_
  | program => cases admits
  | statement => exact absurd plain (role_of_admits_statement admits)
  | clause => cases parent <;> cases admits <;> cases plain
  | staticBlock =>
      cases parent <;> cases admits
      cases plain

theorem functionBody_of_role {kind : Kind} (role : kind.role = .body) : kind = .functionBody := by
  cases kind <;> first | rfl | cases role

end Kind

/-- A call near above a `return` is the third node above it, with a function in between. -/
theorem Reaches.near_call {root returning call : Node} {path : List Node}
    (reaches : Reaches root path returning) (formed : root.WellFormed)
    (isReturn : returning.kind = .returnStatement) (isCall : call.kind = .call)
    (near : call ∈ path.take factoryDepth) :
    ∃ body function rest, path = body :: function :: call :: rest ∧
      body.kind = .functionBody ∧ function.kind.isFunction = true := by
  have below {n : Node} (admits : call.kind.admits n.role = true) : n.role = .plain := by
    rw [isCall] at admits
    cases role : n.role <;> rw [role] at admits <;> first | rfl | cases admits
  rcases path with _ | ⟨a, path⟩
  · cases near
  have holds := reaches.admits formed
  rw [role, isReturn] at holds
  have notPlain := Kind.role_of_admits_statement holds
  have notCall : call ≠ a := by
    rintro rfl
    rw [isCall] at holds
    cases holds
  rcases path with _ | ⟨b, path⟩
  · exact absurd (List.mem_singleton.mp near) notCall
  have inner := reaches.parent.1.admits formed
  have notCall' : call ≠ b := by
    rintro rfl
    exact notPlain (below inner)
  rcases path with _ | ⟨c, path⟩
  · simp [factoryDepth, notCall, notCall'] at near
  obtain rfl : call = c := by simpa [factoryDepth, notCall, notCall'] using near
  have outer := below (reaches.parent.1.parent.1.admits formed)
  have others : a.role ≠ .sequence ∧ a.role ≠ .classBody := by
    unfold role
    generalize a.kind = kind at holds
    constructor <;> cases kind <;> cases holds <;> rintro ⟨⟩
  obtain ⟨body, function⟩ := Kind.isFunction_of_admits outer inner notPlain others.1 others.2
  exact ⟨a, b, path, rfl, Kind.functionBody_of_role body, function⟩

end Node

theorem Exposed.reaches {root n : Node} {policy : Policy} {path : List Node}
    (exposed : Exposed root policy [] root path n) : Node.Reaches root path n := by
  induction exposed with
  | top => exact .top
  | child _ _ member ih => exact .child ih member

theorem Job.Visits.reaches {job : Job} {p q : Position} {n k : Node} (visits : job.Visits p n q k) :
    ∃ above, Node.Reaches n above k ∧ q.path = above ++ p.path := by
  induction visits with
  | here => exact ⟨[], .top, rfl⟩
  | @down p q n m k _ _ member _ ih =>
      obtain ⟨above, reaches, same⟩ := ih
      refine ⟨above ++ [n], (Node.Reaches.top.child member).trans reaches, ?_⟩
      rw [same, List.append_assoc]
      rfl

theorem Job.Searches.reaches {job : Job} {p : Position} {n : Node} (searches : job.Searches p n) :
    Node.Reaches job.root p.path n := by
  induction searches with
  | top => exact .top
  | child _ _ _ member ih => exact .child ih member
  | inside _ _ _ _ ih => exact .child ih (List.mem_singleton_self _)

end AmdUnwrap
