import AmdUnwrap.Proofs.Literal

namespace AmdUnwrap
open Amd

/-- Declares a variable that is called this, however its name is written. -/
def Node.Declares (text name : Text) (d : Node) : Prop :=
  ∃ span bound written rest, d = .mk .declarator span (.mk (.binding bound) written [] :: rest) ∧
    Name.Denotes (text.slice written) name

def Node.InitializedWith (d array : Node) : Prop :=
  ∃ span target trailing, d = .mk .declarator span [target, array] ∧ array.kind = .array trailing

/-- A declarator of a name that starts before every other one in the tree. -/
structure DeclaresFirst (text : Text) (root : Node) (name : Text) (d : Node) : Prop where
  inside : d ∈ root.preorder
  declares : d.Declares text name
  first : ∀ other ∈ root.preorder, other.Declares text name → other ≠ d →
    d.span.start < other.span.start

section
variable {text name : Text} {lo hi : Nat} {ns : List Node} {d m : Node}

theorem declaredArray_iff {array : Node} :
    declaredArray? d = some array ↔ d.InitializedWith array := by
  constructor
  · intro declared
    unfold declaredArray? at declared
    split at declared
    next span target trailing arraySpan items =>
      cases declared
      exact ⟨span, target, trailing, rfl, rfl⟩
    · cases declared
  · rintro ⟨span, target, trailing, rfl, kind⟩
    obtain ⟨_, arraySpan, items⟩ := array
    cases kind
    rfl

theorem Nested.descends (nested : Nested text lo ns hi) (member : m ∈ Node.preorderAll ns) :
    m.Stands text ∧ lo ≤ m.span.start ∧ m.span.stop ≤ hi ∧
      Nested text m.span.start m.children m.span.stop := by
  induction nested with
  | nil _ => cases member
  | @node lo hi n ns start stands inner rest ih ih' =>
      have inside := inner.le
      have after := rest.le
      obtain ⟨kind, span, children⟩ := n
      rw [Node.preorderAll, Node.preorder, List.mem_append, List.mem_cons] at member
      rcases member with (rfl | lower) | later
      · exact ⟨stands, start, after, inner⟩
      · obtain ⟨standing, low, high, within⟩ := ih lower
        exact ⟨standing, start.trans low, high.trans after, within⟩
      · obtain ⟨standing, low, high, within⟩ := ih' later
        exact ⟨standing, (start.trans inside).trans low, high, within⟩

theorem declares_iff (within : Nested text d.span.start d.children d.span.stop) :
    declares name d = true ↔ d.Declares text name := by
  constructor
  · intro declared
    unfold declares at declared
    split at declared
    next span bound written below rest =>
      obtain ⟨stands, -⟩ := within.mem List.mem_cons_self
      have alone : below = [] := stands.leaf rfl
      have denotes := stands.named bound rfl
      rw [eq_of_beq declared] at denotes ⊢
      rw [alone]
      exact ⟨span, name, written, rest, rfl, denotes⟩
    · cases declared
  · rintro ⟨span, bound, written, rest, rfl, denotes⟩
    obtain ⟨stands, -⟩ := within.mem List.mem_cons_self
    have same : bound = name := (stands.named bound rfl).unique denotes
    rw [declares, same]
    exact beq_self_eq_true name

theorem declares_before (within : Nested text d.span.start d.children d.span.stop)
    (declared : declares name d = true) (member : m ∈ Node.preorderAll d.children)
    (inner : declares name m = true) : d.span.start < m.span.start := by
  obtain ⟨span, bound, written, rest, rfl, -⟩ := (declares_iff within).mp declared
  cases within with
  | node start stands _ after =>
      have filled := stands.filled rfl
      rw [Node.children, Node.preorderAll, Node.preorder, Node.preorderAll, List.cons_append,
        List.mem_cons] at member
      rcases member with rfl | later
      · cases inner
      · have low := (after.descends later).2.1
        exact (start.trans_lt filled).trans_le low

theorem Nested.declarations_ascend (nested : Nested text lo ns hi) :
    ((Node.preorderAll ns).filter (declares name)).Pairwise (·.span.start < ·.span.start) := by
  induction nested with
  | nil _ => exact .nil
  | @node lo hi n ns start stands inner rest ih ih' =>
      have whole := Nested.node start stands inner (.nil (Nat.le_refl _))
      rw [Node.preorderAll, List.filter_append, List.pairwise_append]
      refine ⟨?_, ih', ?_⟩
      · rw [Node.preorder_eq, ← Node.preorderAll_eq_flatMap, List.filter_cons]
        split
        next declared =>
          apply List.Pairwise.cons _ ih
          intro m found
          obtain ⟨member, lower⟩ := List.mem_filter.mp found
          exact declares_before inner declared member lower
        · exact ih
      · intro a first b second
        obtain ⟨member, declared⟩ := List.mem_filter.mp first
        have one : a ∈ Node.preorderAll [n] := by
          rw [Node.preorderAll, Node.preorderAll, List.append_nil]
          exact member
        obtain ⟨standing, -, high, within⟩ := whole.descends one
        obtain ⟨_, _, _, _, same, -⟩ := (declares_iff within).mp declared
        have filled : a.span.start < a.span.stop := standing.filled (by rw [same]; rfl)
        have low := (rest.descends (List.mem_filter.mp second).1).2.1
        exact (filled.trans_le high).trans_le low

end

theorem find_eq_some_iff {p : Node → Bool} {nodes : List Node} {d : Node}
    (ascend : (nodes.filter p).Pairwise (·.span.start < ·.span.start)) :
    nodes.find? p = some d ↔ d ∈ nodes ∧ p d = true ∧
      ∀ other ∈ nodes, p other = true → other ≠ d → d.span.start < other.span.start := by
  rw [← List.head?_filter]
  have listed {m : Node} : m ∈ nodes.filter p ↔ m ∈ nodes ∧ p m = true := List.mem_filter
  generalize nodes.filter p = found at ascend listed
  cases found with
  | nil =>
      apply iff_of_false nofun
      rintro ⟨inside, holds, -⟩
      cases listed.mpr ⟨inside, holds⟩
  | cons first later =>
      obtain ⟨before, -⟩ := List.pairwise_cons.mp ascend
      constructor
      · rintro same
        cases same
        obtain ⟨inside, holds⟩ := listed.mp List.mem_cons_self
        refine ⟨inside, holds, fun other member also differs => ?_⟩
        rcases List.mem_cons.mp (listed.mpr ⟨member, also⟩) with same | member
        · exact absurd same differs
        · exact before other member
      · rintro ⟨inside, holds, least⟩
        rcases List.mem_cons.mp (listed.mpr ⟨inside, holds⟩) with rfl | member
        · rfl
        · obtain ⟨front, also⟩ := listed.mp (List.mem_cons_self (a := first) (l := later))
          have forth := before d member
          have back := least first front also (by
            rintro rfl
            exact Nat.lt_irrefl _ forth)
          exact absurd back forth.asymm

mutual
/-- A walk through the tree that carries the declarator it has found. It compares a declarator
before it goes inside, and passes by all others once one is found. -/
def visitDeclarators (name : Text) (found : Option Node) : Node → Option Node
  | .mk .declarator span children =>
    match found with
    | some d => some d
    | none =>
      if declares name (.mk .declarator span children) then some (.mk .declarator span children)
      else visitDeclaratorsAll name none children
  | .mk _ _ children => visitDeclaratorsAll name found children

def visitDeclaratorsAll (name : Text) (found : Option Node) : List Node → Option Node
  | [] => found
  | n :: rest => visitDeclaratorsAll name (visitDeclarators name found n) rest
end

theorem visitDeclaratorsAll_eq {name : Text} {ns : List Node}
    (each : ∀ n ∈ ns, ∀ found, visitDeclarators name found n =
      found.or (n.preorder.find? (declares name))) (found : Option Node) :
    visitDeclaratorsAll name found ns =
      found.or ((Node.preorderAll ns).find? (declares name)) := by
  induction ns generalizing found with
  | nil => simp [visitDeclaratorsAll, Node.preorderAll]
  | cons n rest ih =>
      obtain ⟨first, others⟩ := List.forall_mem_cons.mp each
      rw [visitDeclaratorsAll, ih others, first, Node.preorderAll, List.find?_append,
        Option.or_assoc]

theorem visitDeclarators_eq (name : Text) (n : Node) : ∀ found, visitDeclarators name found n =
    found.or (n.preorder.find? (declares name)) := by
  induction n using Node.induction with
  | step n ih =>
      intro found
      obtain ⟨kind, span, children⟩ := n
      have all (found : Option Node) : visitDeclaratorsAll name found children =
          found.or ((Node.preorderAll children).find? (declares name)) :=
        visitDeclaratorsAll_eq ih found
      rw [Node.preorder]
      by_cases declarator : kind = .declarator
      · subst declarator
        cases found with
        | some d => simp [visitDeclarators]
        | none =>
            by_cases declared : declares name (.mk .declarator span children) = true
            · simp [visitDeclarators, declared]
            · simp [visitDeclarators, declared, all]
      · have other : declares name (.mk kind span children) = false := by
          unfold declares
          split
          next same => exact absurd (Node.mk.inj same).1 declarator
          · rfl
        rw [visitDeclarators]
        · rw [all, List.find?_cons_of_neg]
          simp [other]
        · exact declarator

theorem arrayNamed_eq_visit (root : Node) (name : Text) :
    arrayNamed? root name = (visitDeclarators name none root).bind declaredArray? := by
  rw [visitDeclarators_eq]
  rfl

section
variable {mode : Mode} {text : Text} {root : Node}

theorem declares_iff_of_mem (parsed : readProgram mode text = .ok root) {name : Text} {d : Node}
    (member : d ∈ root.preorder) : declares name d = true ↔ d.Declares text name := by
  obtain ⟨path, reaches⟩ := Node.mem_preorder.mp member
  exact declares_iff (reaches.placed parsed).2

theorem find_declares_iff (parsed : readProgram mode text = .ok root) {name : Text} {d : Node} :
    root.preorder.find? (declares name) = some d ↔ DeclaresFirst text root name d := by
  have ascend : (root.preorder.filter (declares name)).Pairwise
      (·.span.start < ·.span.start) := by
    obtain ⟨body, rfl, nested⟩ := readProgram_nested parsed
    exact nested.declarations_ascend
  rw [find_eq_some_iff ascend]
  constructor
  · rintro ⟨inside, declared, least⟩
    exact ⟨inside, (declares_iff_of_mem parsed inside).mp declared, fun other member also =>
      least other member ((declares_iff_of_mem parsed member).mpr also)⟩
  · intro first
    refine ⟨first.inside, (declares_iff_of_mem parsed first.inside).mpr first.declares, ?_⟩
    intro other member also
    exact first.first other member ((declares_iff_of_mem parsed member).mp also)

/-- The array of a variable is that of the declarator of its name that stands first in the text,
wherever that is; if that one has no array, no other makes up for it. -/
theorem arrayNamed_first (parsed : readProgram mode text = .ok root) (name : Text) :
    (∀ array, arrayNamed? root name = some array ↔
      ∃ d, DeclaresFirst text root name d ∧ d.InitializedWith array) ∧
    (arrayNamed? root name = none ↔ (∀ d ∈ root.preorder, ¬ d.Declares text name) ∨
      ∃ d, DeclaresFirst text root name d ∧ ∀ array, ¬ d.InitializedWith array) := by
  constructor
  · intro array
    rw [arrayNamed?, Option.bind_eq_some_iff]
    simp only [find_declares_iff parsed, declaredArray_iff]
  · rw [arrayNamed?]
    cases found : root.preorder.find? (declares name) with
    | none =>
        apply iff_of_true rfl
        apply Or.inl
        intro d inside declared
        have matched := (declares_iff_of_mem parsed inside).mpr declared
        exact absurd matched (List.find?_eq_none.mp found d inside)
    | some d =>
        have first := (find_declares_iff parsed).mp found
        rw [Option.bind_some, Option.eq_none_iff_forall_ne_some]
        constructor
        · intro without
          exact .inr ⟨d, first, fun array given => without array (declaredArray_iff.mpr given)⟩
        · rintro (absent | ⟨other, alone, without⟩) array given
          · exact absent d first.inside first.declares
          · have same := (find_declares_iff parsed).mpr alone
            cases found.symm.trans same
            exact without array (declaredArray_iff.mp given)

theorem arrayNamed_first_nested :
    let text : Text := ("var \x7bx = function () \x7bvar d\\u0065ps = ['a'];\x7d\x7d = 0, deps = 1, " ++
      "list = function () \x7bvar list = ['b'];\x7d;").toList
    ∃ root array first without, readProgram .global text = .ok root ∧
      DeclaresFirst text root "deps".toList first ∧ first.InitializedWith array ∧
      text.slice array.span = "['a']".toList ∧
      DeclaresFirst text root "list".toList without ∧
      ∀ array, ¬ without.InitializedWith array := by
  intro text
  have concrete : (readProgram .global text).toOption.any (fun root =>
      (arrayNamed? root "deps".toList).any (fun array => text.slice array.span == "['a']".toList) &&
      (arrayNamed? root "list".toList).isNone && root.preorder.any (declares "list".toList)) =
      true := by decide +kernel
  cases parsed : readProgram .global text with
  | error error =>
      rw [parsed] at concrete
      cases concrete
  | ok root =>
      rw [parsed] at concrete
      simp only [Except.toOption, Option.any_some, Bool.and_eq_true, Option.any_eq_true,
        Option.isNone_iff_eq_none, List.any_eq_true] at concrete
      obtain ⟨⟨⟨array, named, slice⟩, absent⟩, d, inside, declared⟩ := concrete
      obtain ⟨first, least, given⟩ := ((arrayNamed_first parsed _).1 array).mp named
      rcases (arrayNamed_first parsed _).2.mp absent with nowhere | ⟨without, lone, bare⟩
      · exact absurd ((declares_iff_of_mem parsed inside).mp declared) (nowhere d inside)
      · exact ⟨root, array, first, without, rfl, least, given, eq_of_beq slice, lone, bare⟩

end
end AmdUnwrap
