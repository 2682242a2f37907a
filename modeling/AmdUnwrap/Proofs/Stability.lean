import AmdUnwrap.Proofs.Frame

namespace AmdUnwrap
open Amd

/-- Of the AMD statements that no converted one holds, every one stays. -/
def Left (root : Node) (policy : Policy) (start : List Node) (top : Node) : Prop :=
  ∀ path span call, Exposed root policy start top path (.mk .expressionStatement span [call]) →
    isAmd call = true → path.head?.any holdsStatements = true →
    ∃ notes, decision root policy call = .leave notes

namespace Left

variable {root n m : Node} {policy : Policy} {path : List Node}

theorem not_converts (left : Left root policy path n) : ¬ Converts root policy path n := by
  rintro ⟨span, call, notes, plan, rfl, amd, among, decided⟩
  obtain ⟨notes', decided'⟩ := left path span call .top amd among
  cases decided.symm.trans decided'

theorem child (left : Left root policy path n) (member : m ∈ n.children) :
    Left root policy (n :: path) m := by
  intro path' span call exposed
  exact left path' span call (exposed.up left.not_converts member)

end Left

namespace Job

variable {job : Job} {p : Position} {n : Node} {list : Unresolved}

theorem search_failure (failed : (job.search p n).failure = some list) :
    (∃ span call, n = .mk .expressionStatement span [call] ∧ isAmd call = true ∧
      p.amongStatements = true ∧ ∀ notes, decision job.root job.policy call ≠ .leave notes) ∨
    (job.searchAll (p.below n) n.children).failure = some list := by
  have finds := job.search_finds p n
  generalize job.search p n = f at failed finds
  cases finds with
  | replaced amd among decided =>
      refine .inl ⟨_, _, rfl, amd, among, fun notes stays => ?_⟩
      cases decided.symm.trans stays
  | failed amd among decided =>
      refine .inl ⟨_, _, rfl, amd, among, fun notes stays => ?_⟩
      cases decided.symm.trans stays
  | returned => cases failed
  | passed => exact .inr failed

theorem search_left (left : Left job.root job.policy p.path n) :
    (job.search p n).failure = none := by
  induction n using Node.induction generalizing p with
  | step n ih =>
      cases failed : (job.search p n).failure with
      | none => rfl
      | some list =>
          rcases search_failure failed with ⟨span, call, rfl, amd, among, stays⟩ | inside
          · obtain ⟨notes, decided⟩ := left p.path span call .top amd among
            exact absurd decided (stays notes)
          · have done : (job.searchAll (p.below n) n.children).failure = none :=
              searchAll_failure.mpr fun m member => ih m member (left.child member)
            cases done.symm.trans inside

end Job

/-- A text in which every AMD statement stays is converted to itself. -/
theorem convert_fixes {options : Options} {text : Text} {root : Node}
    (parsed : readProgram options.mode text = .ok root)
    (left : Left root options.policy [] root) : convert options text = .ok text := by
  let job : Job := ⟨root, .ofProgram text root, options.policy⟩
  have done : (job.search .top root).failure = none := Job.search_left (p := .top) left
  have converted : convert options text =
      .ok (job.source.render ⟨0, text.byteLength⟩ (job.search .top root).edits 0) := by
    simp only [convert, conversion, parsed, unwrapProgram]
    rw [done]
  have none : (job.search .top root).edits = [] := by
    obtain ⟨-, spans⟩ := program_edits parsed done
    rw [List.eq_nil_iff_forall_not_mem]
    intro edit member
    obtain ⟨path, n, exposed, ⟨span, call, notes, plan, rfl, amd, among, decided⟩, -⟩ :=
      (spans _).mp (List.mem_map_of_mem member)
    obtain ⟨notes', decided'⟩ := left path span call exposed amd among
    cases decided.symm.trans decided'
  generalize job.source.render ⟨0, text.byteLength⟩ (job.search .top root).edits 0 = output
    at converted
  obtain ⟨_, parsed', -, splices⟩ := convert_splices converted
  cases parsed.symm.trans parsed'
  rw [none] at splices
  cases splices
  exact converted

/-- The pattern of a parameter is copied as it stands, so that a module in one of its defaults is
converted the second time only. -/
theorem convert_twice_differs :
    let text := ("define(['a'], function (\x7b run = function () \x7b define(\x7b b: 1 \x7d);" ++
      " \x7d \x7d) \x7b run(); \x7d);").toList
    let once := ("var \x7b run = function () \x7b define(\x7b b: 1 \x7d); \x7d \x7d = " ++
      "require('a');\nrun();").toList
    let twice := ("var \x7b run = function () \x7b module.exports = \x7b b: 1 \x7d; \x7d \x7d = " ++
      "require('a');\nrun();").toList
    convert {} text = .ok once ∧ convert {} once = .ok twice ∧ once ≠ twice :=
  ⟨ok_of_toOption (by decide +kernel), ok_of_toOption (by decide +kernel), by decide⟩

end AmdUnwrap
