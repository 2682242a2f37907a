import AmdUnwrap.Convert
import AmdUnwrap.Proofs.Search
import AmdUnwrap.Proofs.Splice

namespace AmdUnwrap
open Amd

theorem kind_of_isAmd {n : Node} (amd : isAmd n = true) : n.kind = .call := by
  unfold isAmd at amd
  split at amd
  · rfl
  · cases amd

namespace Job

variable {job : Job} {text : Text} {p : Position}

theorem searchAll_apart {ns : List Node} {lo hi : Nat} (nested : Nested text lo ns hi)
    (done : (job.searchAll p ns).failure = none)
    (each : ∀ n ∈ ns, (job.search p n).failure = none →
      Apart text n.span.start (job.search p n).edits n.span.stop) :
    Apart text lo (job.searchAll p ns).edits hi := by
  rw [searchAll_edits done]
  rw [searchAll_failure] at done
  exact .flatMap nested fun n member => each n member (done n member)

theorem search_apart {n : Node} (stands : n.Stands text)
    (nested : Nested text n.span.start n.children n.span.stop)
    (done : (job.search p n).failure = none) :
    Apart text n.span.start (job.search p n).edits n.span.stop := by
  induction n using Node.induction generalizing p with
  | step n ih =>
      have alone {edit : Edit} (same : edit.span = n.span) (filled : n.span.start < n.span.stop) :
          Apart text n.span.start [edit] n.span.stop := by
        refine .cons (Nat.le_of_eq (congrArg Span.start same).symm) ?_
          (.nil (Nat.le_of_eq (congrArg Span.stop same)))
        rw [same]
        exact stands.solid filled
      rcases search_cases done with ⟨span, call, notes, plan, rfl, amd, -, -, -, edits⟩ |
        ⟨span, argument, rfl, -, edits⟩ | ⟨-, -, done', edits⟩
      · rw [edits]
        refine alone rfl ?_
        obtain ⟨calls, -⟩ := nested.mem (List.mem_singleton_self call)
        have lt := calls.filled (by rw [kind_of_isAmd amd]; rfl)
        obtain ⟨start, -, stop⟩ := nested.bounds call (List.mem_singleton_self call)
        omega
      · rw [edits]
        exact alone rfl (stands.filled rfl)
      · rw [edits]
        apply searchAll_apart nested done'
        intro m member done
        obtain ⟨stands, nested⟩ := nested.mem member
        exact ih m member stands nested done

end Job

theorem convert_ok {options : Options} {text output : Text}
    (converted : convert options text = .ok output) :
    ∃ root, readProgram options.mode text = .ok root ∧
      let job : Job := ⟨root, .ofProgram text root, options.policy⟩
      (job.search .top root).failure = none ∧
        output = job.source.render ⟨0, text.byteLength⟩ (job.search .top root).edits 0 := by
  unfold convert conversion at converted
  cases parsed : readProgram options.mode text with
  | error e => simp [parsed] at converted
  | ok root =>
      refine ⟨root, rfl, ?_⟩
      simp only [parsed, unwrapProgram] at converted
      split at converted
      · cases converted
      next done =>
        cases converted
        exact ⟨done, rfl⟩

theorem program_edits {mode : Mode} {policy : Policy} {text : Text} {root : Node} {source : Source}
    (parsed : readProgram mode text = .ok root)
    (done : ((⟨root, source, policy⟩ : Job).search .top root).failure = none) :
    let edits := ((⟨root, source, policy⟩ : Job).search .top root).edits
    Apart text 0 edits text.byteLength ∧ ∀ span, span ∈ edits.map Edit.span ↔
      ∃ path n, Exposed root policy [] root path n ∧ Converts root policy path n ∧
        n.span = span := by
  refine ⟨?_, Job.search_exposed rfl done⟩
  obtain ⟨body, rfl, nested⟩ := readProgram_nested parsed
  apply Job.searchAll_apart nested done
  intro n member done
  obtain ⟨stands, inside⟩ := nested.mem member
  exact Job.search_apart stands inside done

/-- The output is the text with the edits of the whole program in their places. -/
theorem convert_splices {options : Options} {text output : Text}
    (converted : convert options text = .ok output) :
    ∃ root, readProgram options.mode text = .ok root ∧
      let job : Job := ⟨root, .ofProgram text root, options.policy⟩
      (job.search .top root).failure = none ∧
        Splices (fun _ kept => kept) 0 (job.search .top root).edits text output := by
  obtain ⟨root, parsed, done, rfl⟩ := convert_ok converted
  obtain ⟨apart, -⟩ := program_edits parsed done
  refine ⟨root, parsed, done, ?_⟩
  generalize ((⟨root, .ofProgram text root, options.policy⟩ : Job).search .top root).edits = edits
    at apart
  have whole : (Source.ofProgram text root).text = [] ++ (text ++ []) := by simp [Source.ofProgram]
  have spliced := (Source.ofProgram text root).splice_splices 0 apart whole rfl
    (by simp [Text.byteLength])
  have still : (Source.ofProgram text root).shift 0 0 = fun _ kept => kept := by
    funext offset kept
    exact Source.shift_zero ..
  have rendered : (Source.ofProgram text root).render ⟨0, text.byteLength⟩ edits 0 =
      (Source.ofProgram text root).splice 0 text.byteLength 0 edits := by
    rw [Source.render, apart.filter_within (Nat.le_refl _) (Nat.le_refl _)]
  rw [still] at spliced
  rwa [rendered]

/-- A conversion replaces the outermost converted statements and nothing else. -/
theorem convert_replaces_outermost_statements {options : Options} {text output : Text}
    (converted : convert options text = .ok output) :
    ∃ root edits, readProgram options.mode text = .ok root ∧
      Splices (fun _ kept => kept) 0 edits text output ∧
      (∀ span, span ∈ edits.map Edit.span ↔ ∃ path n,
        Exposed root options.policy [] root path n ∧ Converts root options.policy path n ∧
          n.span = span) ∧
      ((∀ path n, Exposed root options.policy [] root path n →
        ¬ Converts root options.policy path n) → output = text) := by
  obtain ⟨root, parsed, done, splices⟩ := convert_splices converted
  obtain ⟨-, spans⟩ := program_edits parsed done
  refine ⟨root, _, parsed, splices, spans, fun untouched => ?_⟩
  have none :
      ((⟨root, .ofProgram text root, options.policy⟩ : Job).search .top root).edits = [] := by
    rw [List.eq_nil_iff_forall_not_mem]
    intro edit member
    obtain ⟨path, n, exposed, converts, -⟩ := (spans _).mp (List.mem_map_of_mem member)
    exact untouched path n exposed converts
  rw [none] at splices
  cases splices
  rfl

theorem ok_of_toOption {ε α : Type} {result : Except ε α} {a : α}
    (same : result.toOption = some a) : result = .ok a := by
  cases result with
  | error e => cases same
  | ok b =>
      cases same
      rfl

theorem convert_replaces_one_statement :
    convert {} "define(function () { a(); });\nb();".toList = .ok "a();\nb();".toList ∧
      ∃ root edits, readProgram .global "define(function () { a(); });\nb();".toList = .ok root ∧
        Splices (fun _ kept => kept) 0 edits "define(function () { a(); });\nb();".toList
          "a();\nb();".toList ∧
        ∀ span, span ∈ edits.map Edit.span ↔ ∃ path n, Exposed root .abort [] root path n ∧
          Converts root .abort path n ∧ n.span = span := by
  have converted : convert {} "define(function () { a(); });\nb();".toList =
      .ok "a();\nb();".toList := ok_of_toOption (by decide +kernel)
  obtain ⟨root, edits, parsed, splices, spans, -⟩ :=
    convert_replaces_outermost_statements converted
  exact ⟨converted, root, edits, parsed, splices, spans⟩

end AmdUnwrap
