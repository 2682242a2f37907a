import AmdUnwrap.Proofs.Boundary
import AmdUnwrap.Proofs.Printing

/-!
What becomes of the comments in a factory. No node starts or stops in one, so that it is copied
with what stands around it, unless a statement that is replaced holds it: of a `return` that gives
its value to a module, only the value is kept.
-/

namespace AmdUnwrap
open Amd

/-- No node of the program starts or stops between the ends of the span. -/
def Unparted (root : Node) (span : Span) : Prop :=
  root.Edged fun offset => offset ≤ span.start ∨ span.stop ≤ offset

theorem readProgram_unparted {mode : Mode} {text : Text} {root : Node}
    (parsed : readProgram mode text = .ok root) : ∃ ts q, Runs ⟨0, text⟩ ts q ∧
      ∀ span : Span, span.stop ≤ text.byteLength →
        (∀ t ∈ ts, t.stop.offset ≤ span.start ∨ span.stop ≤ t.start.offset) →
        Unparted root span := by
  obtain ⟨ts, q, runs, edged⟩ := readProgram_edged parsed
  refine ⟨ts, q, runs, fun span inside between => ?_⟩
  apply edged
  · exact .inl (Nat.zero_le _)
  · exact .inr inside
  · intro t member
    have le := runs.ordered t member
    rcases between t member with before | after
    · exact ⟨.inl (Nat.le_trans le before), .inl before⟩
    · exact ⟨.inr after, .inr (Nat.le_trans after le)⟩

theorem Unparted.clear {root n : Node} {path : List Node} {span : Span}
    (unparted : Unparted root span) (reaches : Node.Reaches root path n)
    (outside : span.within n.span = false) :
    n.span.stop ≤ span.start ∨ span.stop ≤ n.span.start := by
  obtain ⟨start, stop⟩ := (Node.Edged.reaches unparted reaches).span
  rw [Bool.eq_false_iff, Ne, Span.within_iff] at outside
  omega

theorem Text.trim_some {text : Text} {region solid : Span} (names : text.Names region)
    (holds : text.Holds solid) (inside : solid.within region = true) :
    ∃ span, text.trim region = some span ∧ solid.within span = true := by
  obtain ⟨before, inner, after, whole, place⟩ := names
  rcases Text.trim_cases whole place with ⟨-, blank⟩ | ⟨left, part, right, -, -, -, -, found⟩
  · rw [Span.within_iff, place] at inside
    have apart : Apart text before.byteLength [⟨solid, []⟩]
        (before.byteLength + inner.byteLength) := .cons inside.1 holds (.nil inside.2)
    cases apart.eq_nil_of_blank whole rfl rfl blank
  · exact ⟨_, found, Text.trim_covers whole place found holds inside⟩

namespace Job

variable {job : Job} {mode : Mode} {p : Position} {statement region c : Span} {call : Node}
  {plan : Plan} {directives : Option Span}

/-- Of a body, what the end of its directives does not part is in one of its pieces. -/
theorem Unwraps.covers (unwraps : job.Unwraps p call plan)
    (searches : job.Searches p (.mk .expressionStatement statement [call]))
    (parsed : readProgram mode job.source.text = .ok job.root)
    (braced : plan.body = .statements region directives) (holds : job.source.text.Holds c)
    (inside : c.within region = true)
    (whole : ∀ opening, directives = some opening →
      opening.stop ≤ c.start ∨ c.stop ≤ opening.stop) :
    ∃ part, c.within part = true ∧ part.within region = true ∧
      ⟨[], part, job.source.innerDedent statement plan.body p.dedent, []⟩ ∈
        job.source.pieces plan statement p.dedent := by
  have inCall := (searches.placed parsed).nested.mem (List.mem_singleton_self call)
  have body := unwraps.moduleBody
  rw [braced] at body
  obtain ⟨factory, heads, bodySpan, statements, hasBody, rfl, rfl⟩ :=
    moduleBody_statements unwraps.amd inCall.2 body
  have nested := hasBody.nested inCall.2 unwraps.amd
  obtain ⟨content, trimmed, inContent⟩ := Text.trim_some hasBody.encloses.names holds inside
  have moves : job.source.movingPart (.statements (interior bodySpan) (directiveSpan statements)) =
      some (content, _) := Source.movingPart_of_trim trimmed
  obtain ⟨contentHolds, inRegion, covers⟩ := movingPart_holds hasBody.encloses nested moves
  cases found : directiveSpan statements with
  | none =>
      have ends : job.source.ending plan.body = some ⟨[], content, []⟩ := by
        rw [found] at moves
        rw [braced, found, Source.ending, moves]
        rfl
      exact ⟨content, inContent, inRegion, job.source.ending_mem statement p.dedent ends⟩
  | some opening =>
      have around := Span.within_iff.mp inContent
      rw [found] at moves
      obtain ⟨front, names⟩ := directives_part contentHolds nested covers found
      have filled := front.lt
      have le := names.le
      rcases whole opening found with before | after
      · obtain ⟨rest, kept, inRest⟩ :=
          Text.trim_some names holds (Span.within_iff.mpr ⟨before, around.2⟩)
        obtain ⟨before', inner, after', whole', place⟩ := names
        have inRest' := Span.within_iff.mp (Text.trim_holds whole' place kept).2
        have inRegion' : rest.within (interior bodySpan) = true := by
          rw [Span.within_iff] at inRegion ⊢
          dsimp only at filled inRest'
          omega
        have ends : job.source.ending plan.body = some ⟨[], rest, []⟩ := by
          have parted : (job.source.partedBody (.statements (interior bodySpan) (some opening))
              content).2 = some rest := kept
          simp only [braced, found, Source.ending, moves, parted, Option.bind_some, bind, pure]
        exact ⟨rest, inRest, inRegion', job.source.ending_mem statement p.dedent ends⟩
      · have opens : job.source.prologue plan.body = some ⟨content.start, opening.stop⟩ := by
          rw [braced, found, Source.prologue, moves]
          rfl
        refine ⟨⟨content.start, opening.stop⟩, Span.within_iff.mpr ⟨around.1, after⟩, ?_,
          job.source.prologue_mem statement p.dedent opens⟩
        rw [Span.within_iff] at inRegion ⊢
        dsimp only at le ⊢
        omega

theorem Unwraps.opening_stop (unwraps : job.Unwraps p call plan)
    (searches : job.Searches p (.mk .expressionStatement statement [call]))
    (parsed : readProgram mode job.source.text = .ok job.root) {opening : Span}
    (braced : plan.body = .statements region (some opening)) :
    ∃ path n, Node.Reaches job.root path n ∧ n.span.stop = opening.stop := by
  have inCall := (searches.placed parsed).nested.mem (List.mem_singleton_self call)
  have body := unwraps.moduleBody
  rw [braced] at body
  obtain ⟨factory, heads, bodySpan, statements, hasBody, rfl, found⟩ :=
    moduleBody_statements unwraps.amd inCall.2 body
  obtain ⟨front, back, last, rfl, ending, -, stop⟩ := directiveSpan_some found.symm
  obtain ⟨atCall, atFactory⟩ := hasBody.members unwraps.amd
  have inBody : last ∈ (Node.mk .functionBody bodySpan (front ++ back)).children :=
    List.mem_append_left back (List.mem_of_getLast? ending)
  have toCall := searches.reaches.child (List.mem_singleton_self call)
  exact ⟨_, last, ((toCall.child atCall).child atFactory).child inBody, stop.symm⟩

theorem Prints.copies {span : Span} {edits : List Edit} {dedent : Nat} {before after : Text}
    (prints : job.Prints span edits dedent before after)
    (parsed : readProgram mode job.source.text = .ok job.root)
    (done : (job.search .top job.root).failure = none) (holds : job.source.text.Holds c)
    (inside : c.within span = true) (unparted : Unparted job.root c)
    (outside : ∀ edit ∈ edits, c.within edit.span = false) :
    ∃ front back, job.source.render ⟨0, job.source.text.byteLength⟩
      (job.search .top job.root).edits 0 = front ++ (job.source.copy dedent c ++ back) := by
  obtain ⟨lo, hi, apart⟩ := prints.apart parsed done
  have filled := holds.lt
  have around := Span.within_iff.mp inside
  have clear : ∀ edit ∈ edits, edit.span.within span = true →
      edit.span.stop ≤ c.start ∨ c.stop ≤ edit.span.start := by
    intro edit member _
    obtain ⟨q, k, searches, makes⟩ := prints.makes done edit member
    rw [← makes.span]
    apply unparted.clear searches.reaches
    rw [makes.span]
    exact outside edit member
  have parts := Source.render_clear dedent (prints.names parsed (by omega)) apart holds inside clear
  refine ⟨before ++ job.source.render ⟨span.start, c.start⟩ edits dedent,
    job.source.render ⟨c.stop, span.stop⟩ edits dedent ++ after, ?_⟩
  calc job.source.render ⟨0, job.source.text.byteLength⟩ (job.search .top job.root).edits 0
      = before ++ (job.source.render span edits dedent ++ after) := prints.output_eq parsed done
    _ = _ := by
        rw [parts]
        simp only [List.append_assoc]

end Job

section

variable {options : Options} {text output : Text} {root call : Node} {p : Position}
  {span statement region c : Span} {edits : List Edit} {dedent : Nat} {before after : Text}
  {plan : Plan} {directives : Option Span}

/-- A comment in the body of a converted statement comes into the output, moved with the body,
unless it is in a statement that is replaced there. -/
theorem convert_keeps_comments (converted : convert options text = .ok output)
    (parsed : readProgram options.mode text = .ok root) (holds : text.Holds c)
    (unparted : Unparted root c) (inside : c.within region = true)
    (braced : plan.body = .statements region directives) :
    let job : Job := ⟨root, .ofProgram text root, options.policy⟩
    job.Prints span edits dedent before after →
    job.Searches p (.mk .expressionStatement statement [call]) → job.Unwraps p call plan →
    job.source.moduleEdit statement plan (job.foundIn p statement call plan).edits p.dedent ∈
      edits → statement.within span = true →
    (∀ edit ∈ (job.foundIn p statement call plan).edits, c.within edit.span = false) →
    ∃ front back, output = front ++
      (job.source.copy (job.source.innerDedent statement plan.body p.dedent) c ++ back) := by
  intro job prints searches unwraps member within outside
  obtain ⟨_, parsed', done, rfl⟩ := convert_ok converted
  cases parsed.symm.trans parsed'
  obtain ⟨part, inPart, -, inPieces⟩ : ∃ part, c.within part = true ∧ part.within region = true ∧
      ⟨[], part, job.source.innerDedent statement plan.body p.dedent, []⟩ ∈
        job.source.pieces plan statement p.dedent := by
    apply unwraps.covers searches parsed braced holds inside
    rintro opening rfl
    obtain ⟨path, n, reaches, stop⟩ := unwraps.opening_stop searches parsed braced
    have uncut := (Node.Edged.reaches unparted reaches).span.2
    rwa [stop] at uncut
  obtain ⟨front, back, split⟩ := List.append_of_mem inPieces
  have printed := Job.Prints.piece prints searches unwraps rfl rfl member within split
  exact printed.copies parsed done holds inPart unparted outside

/-- Of a `return` that gives its value to a module, only the value is kept: what stands between
its keyword and the value, and between the value and its semicolon, is gone. -/
theorem convert_keeps_only_value (converted : convert options text = .ok output)
    (parsed : readProgram options.mode text = .ok root) {argument : Node} :
    let job : Job := ⟨root, .ofProgram text root, options.policy⟩
    job.Prints span edits dedent before after →
    job.Searches p (.mk .returnStatement statement [argument]) → p.inFactory = true →
    job.source.returnEdit statement argument.span p.dedent ∈ edits →
    statement.within span = true →
    output = before ++ (job.source.render ⟨span.start, statement.start⟩ edits dedent ++
      (exportLead ++ (job.source.copy p.dedent argument.span ++
        (';' :: (job.source.render ⟨statement.stop, span.stop⟩ edits dedent ++ after))))) := by
  intro job prints searches inFactory member within
  obtain ⟨_, parsed', done, rfl⟩ := convert_ok converted
  cases parsed.symm.trans parsed'
  have whole := (Job.Prints.returned prints searches inFactory member within).output_eq parsed done
  rw [Source.render_nil] at whole
  simp only [List.append_assoc] at whole
  exact whole

end

/-- The comment of a `return`, which is all that the body of the factory has, is gone. -/
theorem convert_drops_comment :
    let text : Text := "define(function () \x7b return /* why */ 1; \x7d);".toList
    let comment : Span := ⟨28, 37⟩
    convert {} text = .ok "module.exports = 1;".toList ∧
      text.slice comment = "/* why */".toList ∧
      ((readProgram .global text).toOption.any fun root =>
        match root with
        | .mk .program _ [.mk .expressionStatement _ [.mk .call _ [_, factory]]] =>
          match factory.children.getLast? with
          | some (.mk .functionBody _ [.mk .returnStatement place [_]]) => comment.within place
          | _ => false
        | _ => false) = true ∧
      ¬ "/* why */".toList <:+: "module.exports = 1;".toList :=
  ⟨ok_of_toOption (by decide +kernel), by decide +kernel, by decide +kernel, by decide +kernel⟩

end AmdUnwrap
