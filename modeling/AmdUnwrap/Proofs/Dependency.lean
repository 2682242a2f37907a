import AmdUnwrap.Proofs.Syntax.Shape
import AmdUnwrap.Unwrap

/-!
The dependencies of a module: the elements of its list, each with the parameter at its place. The
main statement says how the list of every call is read, and for which reason it is not.
-/

namespace AmdUnwrap
open Amd

def Node.isElision (n : Node) : Bool :=
  match n.kind with
  | .elision => true
  | _ => false

def Node.isSpread (n : Node) : Bool :=
  match n.kind with
  | .spread => true
  | _ => false

def paired (elements : List Node) (parameters : List Span) : List Dependency :=
  (elements.zipIdx.filter fun (element, _) => !element.isElision).map fun (element, index) =>
    ⟨element.span, parameters[index]?⟩

theorem pair_drop (elements : List Node) (parameters : List Span) (start : Nat) :
    pair elements (parameters.drop start) =
      if elements.any Node.isSpread then .error .spread
      else .ok (((elements.zipIdx start).filter fun (element, _) => !element.isElision).map
        fun (element, index) => ⟨element.span, parameters[index]?⟩) := by
  induction elements generalizing start with
  | nil => rfl
  | cons element elements ih =>
      rw [pair, List.tail_drop, List.head?_drop, ih, List.zipIdx_cons, List.any_cons]
      split
      next gap =>
        have skipped : element.isElision = true := by simp [Node.isElision, gap]
        have other : element.isSpread = false := by simp [Node.isSpread, gap]
        simp [skipped, other]
      next spread =>
        have refused : element.isSpread = true := by simp [Node.isSpread, spread]
        simp [refused]
      next noGap noSpread =>
        have kept : element.isElision = false := by
          unfold Node.isElision
          split
          next same => exact absurd same noGap
          · rfl
        have single : element.isSpread = false := by
          unfold Node.isSpread
          split
          next same => exact absurd same noSpread
          · rfl
        rw [single, Bool.false_or]
        split
        · rfl
        · simp [kept, Except.map]

theorem pair_eq (elements : List Node) (parameters : List Span) :
    pair elements parameters = if elements.any Node.isSpread then .error .spread
      else .ok (paired elements parameters) :=
  pair_drop elements parameters 0

def Node.isParameterList (n : Node) : Bool :=
  match n.kind with
  | .parameters => true
  | _ => false

def Node.isParameter : Node → Bool
  | .mk .parameter _ (_ :: _) => true
  | _ => false

def Node.patternSpan? (parameter : Node) : Option Span := parameter.children.head?.map Node.span

/-- The formal parameters of a function or an arrow function, of which a rest parameter is none.
Nothing else has any. -/
def formalParameters (factory : Node) : List Node :=
  if factory.kind.isFunction then
    (factory.children.filter Node.isParameterList).flatMap (·.children.filter Node.isParameter)
  else []

theorem isParameter_of_mem {factory parameter : Node}
    (member : parameter ∈ formalParameters factory) : parameter.isParameter = true := by
  unfold formalParameters at member
  split at member
  · obtain ⟨list, -, inner⟩ := List.mem_flatMap.mp member
    exact (List.mem_filter.mp inner).2
  · cases member

theorem patternSpan?_isSome {n : Node} (formal : n.isParameter = true) :
    n.patternSpan?.isSome = true := by
  obtain ⟨kind, span, children⟩ := n
  cases children with
  | nil => cases kind <;> cases formal
  | cons pattern rest => rfl

theorem patternSpan?_eq (item : Node) : (match item with
    | .mk .parameter _ (pattern :: _) => some pattern.span
    | _ => none) = if item.isParameter then item.patternSpan? else none := by
  obtain ⟨kind, span, children⟩ := item
  cases kind <;> first | rfl | (cases children <;> rfl)

theorem listed_patterns (parts : List Node) : (parts.flatMap fun
      | .mk .parameters _ items => items.filterMap fun
        | .mk .parameter _ (pattern :: _) => some pattern.span
        | _ => none
      | _ => []) =
    ((parts.filter Node.isParameterList).flatMap
      (·.children.filter Node.isParameter)).filterMap Node.patternSpan? := by
  induction parts with
  | nil => rfl
  | cons part parts ih =>
      rw [List.flatMap_cons, ih]
      obtain ⟨kind, span, items⟩ := part
      by_cases list : Node.isParameterList (.mk kind span items) = true
      · rw [List.filter_cons_of_pos list, List.flatMap_cons, List.filterMap_append,
          List.filterMap_filter]
        cases kind <;> cases list
        simp only [patternSpan?_eq]
        rfl
      · rw [List.filter_cons_of_neg list]
        cases kind <;> first | rfl | exact absurd rfl list

theorem parameterPatterns_eq (factory : Node) :
    parameterPatterns factory = (formalParameters factory).filterMap Node.patternSpan? := by
  obtain ⟨kind, span, parts⟩ := factory
  cases kind <;> first | rfl | exact listed_patterns parts

theorem getElem?_filterMap_of_isSome {α β : Type} {f : α → Option β} {items : List α}
    (each : ∀ a ∈ items, (f a).isSome = true) (index : Nat) :
    (items.filterMap f)[index]? = items[index]?.bind f := by
  induction items generalizing index with
  | nil => rfl
  | cons a items ih =>
      obtain ⟨first, others⟩ := List.forall_mem_cons.mp each
      obtain ⟨b, found⟩ := Option.isSome_iff_exists.mp first
      rw [List.filterMap_cons_some found]
      cases index with
      | zero => exact found.symm
      | succ index => exact ih others index

def patternAt? (factory : Node) (index : Nat) : Option Span :=
  (formalParameters factory)[index]?.bind Node.patternSpan?

theorem parameterPatterns_getElem? (factory : Node) (index : Nat) :
    (parameterPatterns factory)[index]? = patternAt? factory index := by
  rw [parameterPatterns_eq, patternAt?]
  apply getElem?_filterMap_of_isSome
  exact fun parameter member => patternSpan?_isSome (isParameter_of_mem member)

/-- The dependency that the element at an index stands for, which is none for a gap. -/
def dependencyAt? (factory : Node) (entry : Node × Nat) : Option Dependency :=
  if entry.1.isElision then none else some ⟨entry.1.span, patternAt? factory entry.2⟩

theorem paired_eq (elements : List Node) (factory : Node) :
    paired elements (parameterPatterns factory) =
      elements.zipIdx.filterMap (dependencyAt? factory) := by
  rw [paired, ← List.filterMap_eq_map, List.filterMap_filter]
  congr 1
  funext ⟨element, index⟩
  simp only [dependencyAt?, Function.comp_apply, parameterPatterns_getElem?]
  cases element.isElision <;> rfl

/-- The elements that an argument stands for, as an array literal or as a variable that is first
declared with one. -/
inductive Enumerates (root : Node) : Node → List Node → Prop where
  | array {trailing : Bool} {span : Span} {elements : List Node} :
      Enumerates root (.mk (.array trailing) span elements) elements
  | named {name : Text} {span place : Span} {children elements : List Node} {trailing : Bool} :
      arrayNamed? root name = some (.mk (.array trailing) place elements) →
      Enumerates root (.mk (.identifier name) span children) elements

/-- How the dependency list of a call is read. -/
inductive ListsAs (root call : Node) : Except Unreadable (Option (List Dependency)) → Prop where
  | none : (arguments call).length < 2 → ListsAs root call (.ok none)
  | unresolved {name : Text} {span : Span} {children others : List Node} :
      arguments call = .mk (.identifier name) span children :: others → others ≠ [] →
      arrayNamed? root name = .none → ListsAs root call (.error (.unresolved name span.start))
  | notList {operand : Node} {others : List Node} :
      arguments call = operand :: others → others ≠ [] →
      (∀ trailing, operand.kind ≠ .array trailing) → (∀ name, operand.kind ≠ .identifier name) →
      ListsAs root call (.error .notList)
  | spread {operand : Node} {others elements : List Node} :
      arguments call = operand :: others → others ≠ [] → Enumerates root operand elements →
      (∃ element ∈ elements, element.isSpread = true) → ListsAs root call (.error .spread)
  | entries {operand factory : Node} {others elements : List Node} :
      arguments call = operand :: others → others.getLast? = some factory →
      Enumerates root operand elements → (∀ element ∈ elements, element.isSpread = false) →
      ListsAs root call (.ok (some (elements.zipIdx.filterMap (dependencyAt? factory))))

variable {root call operand factory : Node} {elements others : List Node}

theorem listElements_of_enumerates (enumerates : Enumerates root operand elements) :
    listElements root operand = .ok elements := by
  cases enumerates with
  | array => rfl
  | named declared =>
      rw [listElements, declared]
      rfl

theorem arrayNamed?_array {name : Text} {array : Node}
    (declared : arrayNamed? root name = some array) :
    ∃ trailing span elements, array = .mk (.array trailing) span elements := by
  obtain ⟨declarator, -, found⟩ := Option.bind_eq_some_iff.mp declared
  unfold declaredArray? at found
  split at found
  · cases found
    exact ⟨_, _, _, rfl⟩
  · cases found

theorem listElements_cases (root operand : Node) :
    (∃ elements, Enumerates root operand elements) ∨
    (∃ name span children, operand = .mk (.identifier name) span children ∧
      arrayNamed? root name = none) ∨
    (∀ trailing, operand.kind ≠ .array trailing) ∧ ∀ name, operand.kind ≠ .identifier name := by
  obtain ⟨kind, span, children⟩ := operand
  cases kind with
  | array trailing => exact .inl ⟨children, .array⟩
  | identifier name =>
      cases declared : arrayNamed? root name with
      | none => exact .inr (.inl ⟨name, span, children, rfl, declared⟩)
      | some array =>
          obtain ⟨trailing, place, elements, rfl⟩ := arrayNamed?_array declared
          exact .inl ⟨elements, .named declared⟩
  | _ => exact .inr (.inr ⟨by rintro _ ⟨⟩, by rintro _ ⟨⟩⟩)

theorem listElements_notList (noArray : ∀ trailing, operand.kind ≠ .array trailing)
    (noName : ∀ name, operand.kind ≠ .identifier name) :
    listElements root operand = .error .notList := by
  obtain ⟨kind, span, children⟩ := operand
  cases kind with
  | array trailing => exact absurd rfl (noArray trailing)
  | identifier name => exact absurd rfl (noName name)
  | _ => rfl

theorem dependencies_short (short : (arguments call).length < 2) :
    dependencies root call = .ok none := by
  unfold dependencies
  split
  next same =>
      rw [same] at short
      simp only [List.length_cons] at short
      omega
  · rfl

theorem dependencies_of_last (same : arguments call = operand :: others)
    (last : others.getLast? = some factory) :
    dependencies root call = (listElements root operand).bind fun elements =>
      if elements.any Node.isSpread then .error .spread
      else .ok (some (elements.zipIdx.filterMap (dependencyAt? factory))) := by
  cases others with
  | nil => cases last
  | cons other more =>
      rw [List.getLast?_eq_some_getLast (by simp), Option.some.injEq] at last
      simp only [dependencies, same, last, pair_eq, paired_eq]
      cases listElements root operand with
      | error reason => rfl
      | ok elements =>
          cases spread : elements.any Node.isSpread <;>
            simp [bind, Except.bind, pure, Except.pure, spread]

theorem ListsAs.dependencies_eq {outcome : Except Unreadable (Option (List Dependency))}
    (lists : ListsAs root call outcome) : dependencies root call = outcome := by
  cases lists with
  | none short => exact dependencies_short short
  | unresolved same some undeclared =>
      have last := List.getLast?_eq_some_getLast some
      rw [dependencies_of_last same last, listElements, undeclared]
      rfl
  | notList same some noArray noName =>
      have last := List.getLast?_eq_some_getLast some
      rw [dependencies_of_last same last, listElements_notList noArray noName]
      rfl
  | spread same some enumerates spread =>
      have last := List.getLast?_eq_some_getLast some
      rw [dependencies_of_last same last, listElements_of_enumerates enumerates]
      exact if_pos (List.any_eq_true.mpr spread)
  | entries same last enumerates single =>
      rw [dependencies_of_last same last, listElements_of_enumerates enumerates]
      apply if_neg
      rintro spread
      obtain ⟨element, member, spread⟩ := List.any_eq_true.mp spread
      cases (single element member).symm.trans spread

theorem listsAs_exists (root call : Node) : ∃ outcome, ListsAs root call outcome := by
  cases same : arguments call with
  | nil => exact ⟨_, .none (by simp [same])⟩
  | cons operand others =>
      cases last : others.getLast? with
      | none =>
          rw [List.getLast?_eq_none_iff.mp last] at same
          exact ⟨_, .none (by simp [same])⟩
      | some factory =>
          have some : others ≠ [] := by
            rintro rfl
            cases last
          rcases listElements_cases root operand with ⟨elements, enumerates⟩ |
            ⟨name, span, children, rfl, undeclared⟩ | ⟨noArray, noName⟩
          · by_cases spread : ∃ element ∈ elements, element.isSpread = true
            · exact ⟨_, .spread same some enumerates spread⟩
            · refine ⟨_, .entries same last enumerates fun element member => ?_⟩
              rw [← Bool.not_eq_true]
              exact fun spreads => spread ⟨element, member, spreads⟩
          · exact ⟨_, .unresolved same some undeclared⟩
          · exact ⟨_, .notList same some noArray noName⟩

theorem dependencies_listsAs (root call : Node) : ListsAs root call (dependencies root call) := by
  obtain ⟨outcome, lists⟩ := listsAs_exists root call
  rwa [lists.dependencies_eq]

/-- The list of a call is read in just one way: it is none below two arguments, refused for what
its first argument is or holds, and else has an entry for each element that is no gap. -/
theorem dependencies_eq_iff (root call : Node)
    (outcome : Except Unreadable (Option (List Dependency))) :
    dependencies root call = outcome ↔ ListsAs root call outcome := by
  constructor
  · rintro rfl
    exact dependencies_listsAs root call
  · exact ListsAs.dependencies_eq

theorem decision_convert {policy : Policy} {notes : List Event} {plan : Plan}
    (decided : decision root policy call = .convert notes plan) :
    moduleBody? call = some plan.body ∧
      (dependencies root call = .ok (some plan.dependencies) ∨
        dependencies root call = .ok none ∧ plan.dependencies = []) := by
  have body {notes' : List Event} {list : List Dependency}
      (decided : decideBody call notes' list = .convert notes plan) :
      moduleBody? call = some plan.body ∧ list = plan.dependencies := by
    unfold decideBody at decided
    cases found : moduleBody? call with
    | none => simp [found] at decided
    | some body =>
        rw [found] at decided
        cases decided
        exact ⟨rfl, rfl⟩
  unfold decision at decided
  cases found : dependencies root call with
  | ok list =>
      rw [found] at decided
      cases list with
      | none =>
          obtain ⟨same, none⟩ := body decided
          exact ⟨same, .inr ⟨rfl, none.symm⟩⟩
      | some list =>
          obtain ⟨same, rfl⟩ := body decided
          exact ⟨same, .inl rfl⟩
  | error reason =>
      rw [found] at decided
      cases reason with
      | unresolved name offset => cases policy <;> cases decided
      | notList => cases decided
      | spread => cases decided

theorem dependencies_some {list : List Dependency}
    (found : dependencies root call = .ok (some list)) :
    ∃ operand others factory elements, arguments call = operand :: others ∧
      others.getLast? = some factory ∧ listElements root operand = .ok elements ∧
      list = paired elements (parameterPatterns factory) := by
  have lists := dependencies_listsAs root call
  rw [found] at lists
  cases lists with
  | entries same last enumerates single =>
      exact ⟨_, _, _, _, same, last, listElements_of_enumerates enumerates, (paired_eq ..).symm⟩

theorem dependencies_none (found : dependencies root call = .ok none) :
    (arguments call).length < 2 := by
  have lists := dependencies_listsAs root call
  rw [found] at lists
  cases lists with
  | none short => exact short

def Lists (root call : Node) (list : List Dependency) : Prop :=
  ((arguments call).length < 2 ∧ list = []) ∨
    ∃ operand others factory elements, arguments call = operand :: others ∧
      others.getLast? = some factory ∧ listElements root operand = .ok elements ∧
      list = paired elements (parameterPatterns factory)

theorem decision_lists {root call : Node} {policy : Policy} {notes : List Event} {plan : Plan}
    (decided : decision root policy call = .convert notes plan) :
    Lists root call plan.dependencies := by
  obtain ⟨-, some | ⟨none, empty⟩⟩ := decision_convert decided
  · exact .inr (dependencies_some some)
  · exact .inl ⟨dependencies_none none, empty⟩

end AmdUnwrap
