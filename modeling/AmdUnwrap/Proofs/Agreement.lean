import AmdUnwrap.Proofs.Module

namespace AmdUnwrap
open Amd

def Event.unresolved? : Event → Option Unresolved
  | .leftUnresolved list => some list
  | _ => none

def Findings.unresolved (f : Findings) : List Unresolved := f.events.filterMap Event.unresolved?

def Quiet (notes : List Event) : Prop := notes.filterMap Event.unresolved? = []

namespace Findings

/-- What is found where the first unresolved list ends the search, and where calls are left. -/
structure Agree (abort skip : Findings) : Prop where
  resolved : skip.failure = .none
  first : abort.failure = skip.unresolved.head?
  same : abort.failure = .none → abort = skip

theorem followedBy_unresolved {first later : Findings} (done : first.failure = .none) :
    (first.followedBy later).unresolved = first.unresolved ++ later.unresolved := by
  rw [unresolved, followedBy, done]
  exact List.filterMap_append

theorem noting_unresolved {notes : List Event} (f : Findings) :
    (f.noting notes).unresolved = notes.filterMap Event.unresolved? ++ f.unresolved :=
  List.filterMap_append

namespace Agree

variable {abort skip abort' skip' : Findings} {notes : List Event}

theorem none : Agree .none .none := ⟨rfl, rfl, fun _ => rfl⟩

theorem followedBy (first : Agree abort skip) (later : Agree abort' skip') :
    Agree (abort.followedBy abort') (skip.followedBy skip') := by
  refine ⟨followedBy_failure.mpr ⟨first.resolved, later.resolved⟩, ?_, ?_⟩
  · rw [followedBy_unresolved first.resolved, List.head?_append, ← first.first, ← later.first]
    cases ended : abort.failure <;> simp [Findings.followedBy, ended]
  · intro done
    obtain ⟨done, done'⟩ := followedBy_failure.mp done
    rw [first.same done, later.same done']

theorem noting (agree : Agree abort skip) (quiet : Quiet notes) :
    Agree (abort.noting notes) (skip.noting notes) := by
  refine ⟨agree.resolved, ?_, fun done => congrArg _ (agree.same done)⟩
  rw [noting_unresolved, quiet]
  exact agree.first

end Agree
end Findings

def Decision.Quiet : Decision → Prop
  | .convert notes _ | .leave notes => AmdUnwrap.Quiet notes
  | .fail _ => False

theorem decideBody_quiet {call : Node} {notes : List Event} {list : List Dependency}
    (quiet : Quiet notes) : (decideBody call notes list).Quiet := by
  unfold decideBody
  split
  · exact quiet
  · rw [Decision.Quiet, Quiet, List.filterMap_append, quiet]
    rfl

/-- The policy counts for a list that is not resolved, and for nothing else. -/
theorem decision_policies (root call : Node) :
    (∃ list : Unresolved, dependencies root call = .error (.unresolved list.name list.offset) ∧
      decision root .abort call = .fail list ∧
      decision root .skip call = .leave [.leftUnresolved list]) ∨
    ((∀ name offset, dependencies root call ≠ .error (.unresolved name offset)) ∧
      decision root .abort call = decision root .skip call ∧
      (decision root .skip call).Quiet) := by
  unfold decision
  cases found : dependencies root call with
  | ok list =>
      right
      cases list with
      | none => exact ⟨nofun, rfl, decideBody_quiet rfl⟩
      | some list => exact ⟨nofun, rfl, decideBody_quiet rfl⟩
  | error reason =>
      cases reason with
      | unresolved name offset => exact .inl ⟨⟨name, offset⟩, rfl, rfl, rfl⟩
      | notList => exact .inr ⟨nofun, rfl, rfl⟩
      | spread => exact .inr ⟨nofun, rfl, rfl⟩

namespace Job

theorem replace_unresolved {job : Job} {span : Span} {plan : Plan} {notes : List Event}
    {dedent : Nat} {inside : Findings} (quiet : Quiet notes) :
    (job.replace span plan notes dedent inside).unresolved = inside.unresolved := by
  rw [replace, Findings.unresolved, List.filterMap_append, List.filterMap_append, quiet]
  exact List.append_nil _

variable {root : Node} {source : Source}

theorem searchAll_agree {p : Position} {ns : List Node}
    (each : ∀ n ∈ ns, Findings.Agree ((⟨root, source, .abort⟩ : Job).search p n)
      ((⟨root, source, .skip⟩ : Job).search p n)) :
    Findings.Agree ((⟨root, source, .abort⟩ : Job).searchAll p ns)
      ((⟨root, source, .skip⟩ : Job).searchAll p ns) := by
  induction ns with
  | nil =>
      rw [searchAll, searchAll]
      exact .none
  | cons n ns ih =>
      rw [List.forall_mem_cons] at each
      rw [searchAll, searchAll]
      exact each.1.followedBy (ih each.2)

theorem search_agree (p : Position) (n : Node) :
    Findings.Agree ((⟨root, source, .abort⟩ : Job).search p n)
      ((⟨root, source, .skip⟩ : Job).search p n) := by
  induction n using Node.induction generalizing p with
  | step n ih =>
      have inside (q : Position) : Findings.Agree
          ((⟨root, source, .abort⟩ : Job).searchAll q n.children)
          ((⟨root, source, .skip⟩ : Job).searchAll q n.children) :=
        searchAll_agree fun m member => ih m member q
      cases n.treatment with
      | statement span call =>
          rw [search, search]
          split
          · split
            · rcases decision_policies root call with ⟨list, -, abort, skip⟩ | ⟨-, same, quiet⟩
              · rw [abort, skip]
                refine ⟨(inside _).resolved, ?_, fun done => ?_⟩
                · rw [Findings.noting_unresolved]
                  rfl
                · cases done
              · rw [same]
                cases decided : decision root .skip call with
                | convert notes plan =>
                    rw [decided] at quiet
                    have below := inside (((p.below (.mk .expressionStatement span [call])).inside
                      call.span (source.innerDedent span plan.body p.dedent)))
                    refine ⟨below.resolved, ?_, fun done => ?_⟩
                    · rw [replace_unresolved quiet]
                      exact below.first
                    · dsimp only
                      exact congrArg _ (below.same done)
                | leave notes =>
                    rw [decided] at quiet
                    exact (inside _).noting quiet
                | fail list =>
                    rw [decided] at quiet
                    exact quiet.elim
            · exact (inside _).noting rfl
          · exact inside _
      | returning span argument =>
          rw [search, search]
          split
          · exact ⟨rfl, rfl, fun _ => rfl⟩
          · exact inside _
      | other statement return_ =>
          rw [search_other statement return_, search_other statement return_]
          exact inside _

end Job
end AmdUnwrap
