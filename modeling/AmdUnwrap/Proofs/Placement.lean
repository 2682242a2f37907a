import AmdUnwrap.Proofs.Lineage

/-!
Where converted statements stand. The expression of an arrow function counts as the one statement
of a body, so that what takes its place stands where only an expression may; and a sequence that
becomes the value of a module loses all of its parts but the first.
-/

namespace AmdUnwrap
open Amd

def BracedBody (text : Text) (function body : Node) : Prop :=
  function.kind.isBraced = true ∧ body ∈ function.children ∧
    text.Encloses body.span body.children

/-- The call is the whole of what an arrow function returns. -/
def ConciseCall (function call : Node) : Prop :=
  ∃ async heads span, function = .mk (.arrow async true) span (heads ++ [call.conciseBody])

/-- A converted statement stands in a program, a block, a case or a static block, in the braces of
a function, or for the expression of an arrow function. -/
theorem Converts.placed {mode : Mode} {text : Text} {root statement : Node} {policy : Policy}
    {path : List Node} (converts : Converts root policy path statement)
    (reaches : Node.Reaches root path statement) (parsed : readProgram mode text = .ok root) :
    ∃ parent above, path = parent :: above ∧
      ((parent.kind = .program ∨ parent.kind = .block ∨ parent.kind = .switchCase ∨
          parent.kind = .staticBlock) ∨
        ∃ function rest, above = function :: rest ∧
          (BracedBody text function parent ∨
            ∃ call, statement.children = [call] ∧ ConciseCall function call)) := by
  obtain ⟨span, call, notes, plan, rfl, -, among, -⟩ := converts
  have formed := readProgram_wellFormed parsed
  rcases path with _ | ⟨parent, above⟩
  · cases among
  refine ⟨parent, above, rfl, ?_⟩
  have holds : holdsStatements parent = true := among
  unfold holdsStatements at holds
  split at holds
  · exact .inl (.inl ‹_›)
  · next isBody =>
    refine .inr ?_
    obtain ⟨atParent, member⟩ := reaches.parent
    rcases above with _ | ⟨function, rest⟩
    · cases atParent
      obtain ⟨body, rfl, -⟩ := readProgram_nested parsed
      cases isBody
    obtain ⟨atFunction, inFunction⟩ := atParent.parent
    have isFunction := atParent.admits formed
    rw [Node.role, isBody] at isFunction
    have ends := (atFunction.wellFormed formed).endsInBody
    obtain ⟨heads, parts⟩ := ends.last isFunction inFunction isBody
    refine ⟨function, rest, rfl, ?_⟩
    by_cases braced : function.kind.isBraced = true
    · have other : function.kind ≠ .program := by
        intro same
        rw [same] at braced
        cases braced
      obtain ⟨_, _, _, parts', encloses⟩ := ((atFunction.placed parsed).1 other).braced braced
      rw [parts] at parts'
      obtain ⟨-, same⟩ := List.append_inj' parts' rfl
      cases same
      exact .inl ⟨braced, inFunction, encloses⟩
    · obtain ⟨kind, functionSpan, children⟩ := function
      cases kind with
      | arrow async concise =>
          cases concise with
          | false => exact absurd rfl braced
          | true =>
              obtain ⟨heads', value, parts', -⟩ := ends
              have same : heads ++ [parent] = heads' ++ [value.conciseBody] :=
                parts.symm.trans parts'
              obtain ⟨-, last⟩ := List.append_inj' same rfl
              cases last
              cases List.mem_singleton.mp member
              exact .inr ⟨_, rfl, async, heads', functionSpan, by rw [parts']⟩
      | function async generator => exact absurd rfl braced
      | _ => cases isFunction
  · exact .inl (.inr (.inl ‹_›))
  · exact .inl (.inr (.inr (.inl ‹_›)))
  · exact .inl (.inr (.inr (.inr ‹_›)))
  · cases holds

theorem convert_replaces_concise_call {options : Options} {text output : Text}
    {root function call : Node} {path : List Node} {notes : List Event} {plan : Plan}
    (converted : convert options text = .ok output)
    (parsed : readProgram options.mode text = .ok root)
    (exposed : Exposed root options.policy [] root path function)
    (concise : ConciseCall function call) (amd : isAmd call = true)
    (decided : decision root options.policy call = .convert notes plan) :
    ∃ edits, Splices (fun _ kept => kept) 0 edits text output ∧
      call.span ∈ edits.map Edit.span := by
  obtain ⟨async, heads, span, rfl⟩ := concise
  obtain ⟨_, parsed', done, splices⟩ := convert_splices converted
  cases parsed.symm.trans parsed'
  obtain ⟨-, spans⟩ := program_edits parsed done
  refine ⟨_, splices, (spans _).mpr ?_⟩
  have body := exposed.child (not_converts_of_kind nofun)
    (List.mem_append_right heads (List.mem_singleton_self call.conciseBody))
  have statement := body.child (not_converts_of_kind nofun) (List.mem_singleton_self _)
  exact ⟨_, _, statement, ⟨call.span, call, notes, plan, rfl, amd, rfl, decided⟩, rfl⟩

/-- A module as the expression of an arrow function leaves a statement there. -/
theorem convert_breaks_arrow :
    let text := "x.map(() => define(\x7b a: 1 \x7d));".toList
    let output := "x.map(() => module.exports = \x7b a: 1 \x7d;);".toList
    convert {} text = .ok output ∧ (readProgram .global output).toOption.isNone = true :=
  ⟨ok_of_toOption (by decide +kernel), by decide +kernel⟩

/-- What a program assigns is no sequence, so that the text of one is not assigned as a whole. -/
theorem assigned_not_sequence {mode : Mode} {text : Text} {root target value : Node}
    {path : List Node} {operator : Punct} {span : Span}
    (parsed : readProgram mode text = .ok root)
    (reaches : Node.Reaches root path (.mk (.assignment operator) span [target, value])) :
    value.kind ≠ .sequence := by
  intro same
  have formed := reaches.wellFormed (readProgram_wellFormed parsed)
  have admits := formed.admits (List.mem_cons_of_mem target (List.mem_singleton_self value))
  rw [Node.role, same] at admits
  cases admits

/-- Of a sequence that a factory returns, the first part alone becomes the value of the module. -/
theorem convert_splits_sequence :
    let text := "define(function () \x7b return a, b; \x7d);".toList
    let output := "module.exports = a, b;".toList
    convert {} text = .ok output ∧
      ((readProgram .global output).toOption.any fun root =>
        match root with
        | .mk .program _ [.mk .expressionStatement _ [.mk .sequence _
            [.mk (.assignment .assign) _ [_, .mk (.identifier value) _ _], _]]] => value == ['a']
        | _ => false) = true :=
  ⟨ok_of_toOption (by decide +kernel), by decide +kernel⟩

end AmdUnwrap
