import AmdUnwrap.Proofs.Printing
import AmdUnwrap.Proofs.Text.Line

/-!
A conversion keeps to the line ends of its text. What is written comes from parts of the text that
start and stop with something solid, so that none of them cuts between a carriage return and its
line feed, and from line ends that are looked up in the text.
-/

namespace AmdUnwrap
open Amd

namespace Text

/-- Every line feed stands after a carriage return. -/
def Crlf (text : Text) : Prop :=
  ∀ before after, text = before ++ '\n' :: after → before.getLast? = some '\r'

instance (text : Text) : Decidable text.Crlf :=
  decidable_of_iff (∀ k < text.length, (text.drop k).head? = some '\n' →
      (text.take k).getLast? = some '\r') <| by
    constructor
    · rintro each before after rfl
      have found := each before.length (by simp)
      rw [List.drop_left, List.take_left] at found
      exact found rfl
    · intro crlf k _ line
      obtain ⟨rest, start⟩ := List.head?_eq_some_iff.mp line
      exact crlf _ rest (by rw [← start, List.take_append_drop])

def Severs (before after : Text) : Prop :=
  before.getLast? = some '\r' ∧ after.head? = some '\n'

def OneLine (text : Text) : Prop := ∀ c ∈ text, c ≠ '\n' ∧ c ≠ '\r'

instance (text : Text) : Decidable text.OneLine :=
  List.decidableBAll (fun c => c ≠ '\n' ∧ c ≠ '\r') text

theorem crlf_append {a b : Text} (first : Crlf a) (later : Crlf b) : Crlf (a ++ b) := by
  intro before after same
  rcases List.append_eq_append_iff.mp same with ⟨k, rfl, inLater⟩ | ⟨k, inFirst, rest⟩
  · rw [List.getLast?_append, later k after inLater]
    rfl
  · cases k with
    | nil => cases later [] after rest.symm
    | cons c k =>
        cases rest
        exact first before k inFirst

theorem crlf_of_oneLine {text : Text} (line : OneLine text) : Crlf text := by
  rintro before after rfl
  exact absurd rfl (line '\n' (by simp)).1

theorem crlf_part {before part after : Text} (crlf : Crlf (before ++ (part ++ after)))
    (whole : ¬ Severs before part) : Crlf part := by
  rintro front back rfl
  have last := crlf (before ++ front) (back ++ after) (by simp)
  rw [List.getLast?_append] at last
  cases found : front.getLast? with
  | some c => rwa [found] at last
  | none =>
      rw [found] at last
      rw [List.getLast?_eq_none_iff.mp found] at whole
      exact absurd ⟨last, rfl⟩ whole

theorem lineEnding_crlf {text : Text} (crlf : text.Crlf) (lines : '\n' ∈ text) (offset : Nat) :
    text.lineEnding offset = .crlf := by
  have whole := take_append_drop offset text
  unfold lineEnding
  by_cases later : '\n' ∈ text.dropBytes offset
  · rw [if_pos later]
    obtain ⟨rest, after⟩ := first_line later
    apply if_pos
    apply crlf _ rest
    rw [List.append_assoc, ← after, whole]
  · rw [if_neg later]
    have earlier : '\n' ∈ text.takeBytes offset := by
      rw [← whole, List.mem_append] at lines
      exact lines.resolve_right later
    apply if_pos
    apply crlf (text.takeBytes offset).aboveLastLine
      ((text.takeBytes offset).lastLine ++ text.dropBytes offset)
    rw [← List.cons_append, ← List.append_assoc, ← last_line earlier, whole]

theorem lineEnding_lf {text : Text} (plain : '\r' ∉ text) (offset : Nat) :
    text.lineEnding offset = .lf := by
  have whole := take_append_drop offset text
  have lf {before : Text} (inside : before ⊆ text) : endingAfter before = .lf :=
    if_neg fun last => plain (inside (List.mem_of_getLast? last))
  have before : text.takeBytes offset ⊆ text := fun c member => by
    rw [← whole]
    exact List.mem_append_left _ member
  have after : text.dropBytes offset ⊆ text := fun c member => by
    rw [← whole]
    exact List.mem_append_right _ member
  unfold lineEnding
  by_cases later : '\n' ∈ text.dropBytes offset
  · rw [if_pos later]
    apply lf
    apply List.append_subset.mpr
    exact ⟨before, List.Subset.trans (List.takeWhile_subset _) after⟩
  · rw [if_neg later]
    apply lf
    intro c member
    have inTail := List.mem_of_mem_tail (List.mem_reverse.mp member)
    exact before (List.mem_reverse.mp ((List.dropWhile_suffix _).subset inTail))

end Text

namespace Source

variable {s : Source} {dedent : Nat}

theorem shift_line_feed {budget offset : Nat} {text front back : Text}
    (moved : s.shift dedent budget offset text = front ++ '\n' :: back) :
    ∃ before after, text = before ++ '\n' :: after ∧
      s.shift dedent budget offset before = front := by
  induction text generalizing budget offset front with
  | nil => simp [shift] at moved
  | cons c cs ih =>
      simp only [shift] at moved
      split at moved
      next line =>
        cases front with
        | nil => exact ⟨[], cs, by rw [line]; rfl, rfl⟩
        | cons e front =>
            rw [List.cons_append, List.cons_eq_cons] at moved
            obtain ⟨rfl, moved⟩ := moved
            obtain ⟨before, after, rfl, same⟩ := ih moved
            exact ⟨c :: before, after, rfl, by simp only [shift, if_pos line, same]⟩
      next line =>
        split at moved
        next dropped =>
          obtain ⟨before, after, rfl, same⟩ := ih moved
          exact ⟨c :: before, after, rfl, by simp only [shift, if_neg line, if_pos dropped, same]⟩
        next kept =>
          cases front with
          | nil => exact absurd (List.cons_eq_cons.mp moved).1 line
          | cons e front =>
              rw [List.cons_append, List.cons_eq_cons] at moved
              obtain ⟨rfl, moved⟩ := moved
              obtain ⟨before, after, rfl, same⟩ := ih moved
              exact ⟨c :: before, after, rfl, by simp only [shift, if_neg line, if_neg kept, same]⟩

theorem shift_crlf (offset : Nat) {text : Text} (crlf : text.Crlf) :
    Text.Crlf (s.shift dedent 0 offset text) := by
  intro front back moved
  obtain ⟨before, after, rfl, rfl⟩ := shift_line_feed moved
  obtain ⟨kept, rfl⟩ := List.getLast?_eq_some_iff.mp (crlf before after rfl)
  obtain ⟨left, parts⟩ := s.shift_append dedent 0 offset kept ['\r']
  rw [parts]
  exact List.getLast?_concat

theorem shift_subset {budget offset : Nat} {text : Text} :
    s.shift dedent budget offset text ⊆ text := by
  induction text generalizing budget offset with
  | nil => exact List.Subset.refl []
  | cons c cs ih =>
      simp only [shift]
      split
      · exact List.cons_subset_cons c ih
      split
      · exact List.subset_cons_of_subset c ih
      · exact List.cons_subset_cons c ih

end Source

theorem requireTrail_line : requireTrail.OneLine := by decide

theorem exportLead_line : exportLead.OneLine := by decide

theorem semicolon_line : Text.OneLine [';'] := by decide

/-- A property that each part of a text has with the text, unless a line end is cut in two, and
that moving and joining such parts keeps. -/
structure Inherited (s : Source) (P : Text → Prop) : Prop where
  append {a b : Text} : P a → P b → P (a ++ b)
  oneLine {text : Text} : text.OneLine → P text
  lineEnding (offset : Nat) : P (s.lineEnding offset).text
  shift {text : Text} (dedent offset : Nat) : P text → P (s.shift dedent 0 offset text)
  part {before part after : Text} : s.text = before ++ (part ++ after) →
    ¬ Text.Severs before part → P part

theorem inherited_crlf {s : Source} (crlf : s.text.Crlf) (lines : '\n' ∈ s.text) :
    Inherited s Text.Crlf where
  append := Text.crlf_append
  oneLine := Text.crlf_of_oneLine
  lineEnding offset := by
    rw [Source.lineEnding, Text.lineEnding_crlf crlf lines]
    decide
  shift _ offset := Source.shift_crlf offset
  part whole uncut := Text.crlf_part (whole ▸ crlf) uncut

theorem inherited_lf {s : Source} (plain : '\r' ∉ s.text) : Inherited s ('\r' ∉ ·) where
  append first later := by
    rw [List.mem_append, not_or]
    exact ⟨first, later⟩
  oneLine line member := (line '\r' member).2 rfl
  lineEnding offset := by
    rw [Source.lineEnding, Text.lineEnding_lf plain]
    decide
  shift _ _ absent member := absent (Source.shift_subset member)
  part whole _ member := plain (by
    rw [whole]
    exact List.mem_append_right _ (List.mem_append_left _ member))

namespace Inherited

variable {s : Source} {P : Text → Prop} {lo hi : Nat} {edits : List Edit} {span : Span}

theorem nil (inherited : Inherited s P) : P [] := inherited.oneLine nofun

theorem intercalate (inherited : Inherited s P) {separator : Text} (between : P separator)
    {texts : List Text} (each : ∀ text ∈ texts, P text) : P (separator.intercalate texts) := by
  induction texts with
  | nil => exact inherited.nil
  | cons first texts ih =>
      rw [List.forall_mem_cons] at each
      cases texts with
      | nil =>
          rw [List.intercalate_singleton]
          exact each.1
      | cons next texts =>
          rw [List.intercalate_cons_cons]
          exact inherited.append (inherited.append each.1 between) (ih each.2)

theorem solid (inherited : Inherited s P) (holds : s.text.Holds span) : P (s.slice span) := by
  obtain ⟨before, part, after, whole, rfl, ⟨c, first, opens⟩, -⟩ := holds
  rw [Source.slice, Text.slice_eq whole rfl rfl]
  apply inherited.part whole
  rintro ⟨-, line⟩
  cases first.symm.trans line
  cases opens

theorem splice (inherited : Inherited s P) (dedent : Nat) (apart : Apart s.text lo edits hi)
    {before part after : Text} (whole : s.text = before ++ (part ++ after))
    (start : lo = before.byteLength) (stop : hi = before.byteLength + part.byteLength)
    (uncut : ¬ Text.Severs before part) (each : ∀ edit ∈ edits, P edit.text) :
    P (s.splice dedent hi lo edits) := by
  induction apart generalizing before part with
  | @nil lo hi _ =>
      have copied : s.slice ⟨lo, hi⟩ = part := Text.slice_eq whole start stop
      rw [Source.splice, Source.copy, copied]
      exact inherited.shift _ _ (inherited.part whole uncut)
  | @cons lo hi edit edits low holds apart ih =>
      have le := apart.le
      obtain ⟨kept, old, rest, rfl, solid, span⟩ := holds.parts whole (by omega) (by omega)
      have first : s.text = before ++ (kept ++ (old ++ rest ++ after)) := by simp [whole]
      have others : s.text = before ++ kept ++ old ++ (rest ++ after) := by simp [whole]
      have copied : s.slice ⟨lo, edit.span.start⟩ = kept :=
        Text.slice_eq first start (by rw [span])
      have keptUncut : ¬ Text.Severs before kept := by
        rintro ⟨last, line⟩
        exact uncut ⟨last, by rw [List.head?_append, line]; rfl⟩
      -- What an edit replaces ends with no carriage return.
      have restUncut : ¬ Text.Severs (before ++ kept ++ old) rest := by
        rintro ⟨last, -⟩
        obtain ⟨-, ⟨c, ending, closes⟩⟩ := solid
        rw [List.getLast?_append, ending] at last
        cases last
        cases closes
      rw [List.forall_mem_cons] at each
      have later := ih others (by simp [span, Text.byteLength_append, Nat.add_assoc])
        (by simp [stop, Text.byteLength_append, Nat.add_assoc]) restUncut each.2
      rw [Source.splice, Source.copy, copied]
      apply inherited.append _ later
      apply inherited.append _ each.1
      exact inherited.shift _ _ (inherited.part first keptUncut)

theorem render (inherited : Inherited s P) (dedent : Nat) (apart : Apart s.text lo edits hi)
    (solid : span.start < span.stop → s.text.Holds span) (each : ∀ edit ∈ edits, P edit.text) :
    P (s.render span edits dedent) := by
  by_cases filled : span.start < span.stop
  · obtain ⟨before, part, after, whole, rfl, ⟨c, first, opens⟩, -⟩ := solid filled
    apply inherited.splice dedent (apart.within _ (Nat.le_of_lt filled)) whole rfl rfl
    · rintro ⟨-, line⟩
      cases first.symm.trans line
      cases opens
    · intro edit member
      exact each edit (List.mem_filter.mp member).1
  · have none : edits.filter (·.span.within span) = [] := by
      rw [List.filter_eq_nil_iff]
      intro edit member
      have bounds := apart.bounds edit member
      rw [Span.within_iff]
      omega
    have empty : s.copy dedent span = [] := by
      rw [Source.copy, Source.slice, Text.slice_empty (Nat.le_of_not_lt filled), Source.shift]
    rw [Source.render, none, Source.splice]
    exact empty ▸ inherited.nil

theorem separator (inherited : Inherited s P) (statement : Span) (dedent : Nat) :
    P (s.separator statement dedent) := by
  apply inherited.append (inherited.lineEnding _)
  apply inherited.oneLine
  intro c member
  have indent : isIndent c = true := by
    have inLine := List.mem_of_mem_drop member
    exact List.all_eq_true.mp List.all_takeWhile c inLine
  constructor
  all_goals
    rintro rfl
    cases indent

section

variable {job : Job} {mode : Mode} {p : Position} {statement : Span} {call : Node} {plan : Plan}

theorem pattern (inherited : Inherited job.source P)
    (searches : job.Searches p (.mk .expressionStatement statement [call]))
    (unwraps : job.Unwraps p call plan)
    (parsed : readProgram mode job.source.text = .ok job.root) {part : Span}
    (received : some part ∈ plan.dependencies.map Dependency.parameter) :
    P (job.source.slice part) := by
  obtain ⟨path, k, reaches, rfl⟩ := Job.reaches_dependency unwraps received
  obtain ⟨stands, nested⟩ := (searches.placed parsed).nested.mem (List.mem_singleton_self call)
  by_cases filled : k.span.start < k.span.stop
  · exact inherited.solid ((reaches.stands stands nested).1.solid filled)
  · have empty : job.source.slice k.span = [] := Text.slice_empty (Nat.le_of_not_lt filled)
    exact empty ▸ inherited.nil

theorem lead (inherited : Inherited s P) {pattern : Option Text}
    (each : ∀ text, pattern = some text → P text) : P (requireLead pattern) := by
  cases pattern with
  | none => exact inherited.oneLine (by decide)
  | some text =>
      apply inherited.append
      · apply inherited.append (inherited.oneLine (by decide))
        exact each text rfl
      · exact inherited.oneLine (by decide)

theorem edges (inherited : Inherited job.source P)
    (searches : job.Searches p (.mk .expressionStatement statement [call]))
    (unwraps : job.Unwraps p call plan)
    (parsed : readProgram mode job.source.text = .ok job.root) {dedent : Nat} {piece : Piece}
    (member : piece ∈ job.source.pieces plan statement dedent) :
    P piece.lead ∧ P piece.trail := by
  unfold Source.pieces at member
  rcases List.mem_append.mp member with member | last
  · rcases List.mem_append.mp member with first | middle
    · obtain ⟨part, -, rfl⟩ := Option.map_eq_some_iff.mp (Option.mem_toList.mp first)
      exact ⟨inherited.nil, inherited.nil⟩
    · obtain ⟨dependency, inList, rfl⟩ := List.mem_map.mp middle
      constructor
      · apply inherited.lead
        intro text received
        obtain ⟨part, found, rfl⟩ := Option.map_eq_some_iff.mp received
        apply inherited.pattern searches unwraps parsed
        exact List.mem_map.mpr ⟨dependency, inList, found⟩
      · exact inherited.oneLine requireTrail_line
  · obtain ⟨e, ends, rfl⟩ := Option.map_eq_some_iff.mp (Option.mem_toList.mp last)
    cases body : plan.body with
    | value expression =>
        rw [body] at ends
        cases ends
        exact ⟨inherited.oneLine exportLead_line, inherited.oneLine semicolon_line⟩
    | statements region directives =>
        rw [body] at ends
        obtain ⟨_, -, ends⟩ := Option.bind_eq_some_iff.mp ends
        obtain ⟨_, -, ends⟩ := Option.bind_eq_some_iff.mp ends
        cases ends
        exact ⟨inherited.nil, inherited.nil⟩

theorem moduleEdit (inherited : Inherited job.source P)
    (searches : job.Searches p (.mk .expressionStatement statement [call]))
    (unwraps : job.Unwraps p call plan)
    (parsed : readProgram mode job.source.text = .ok job.root)
    (apart : Apart job.source.text lo edits hi) (each : ∀ edit ∈ edits, P edit.text) :
    P (job.source.moduleEdit statement plan edits p.dedent).text := by
  have texts : (job.source.moduleEdit statement plan edits p.dedent).text =
      (job.source.separator statement p.dedent).intercalate
        ((job.source.pieces plan statement p.dedent).map (job.source.print edits)) := by
    rw [← Source.replacement_pieces]
    rfl
  rw [texts]
  apply inherited.intercalate (inherited.separator statement p.dedent)
  intro text member
  obtain ⟨piece, inPieces, rfl⟩ := List.mem_map.mp member
  obtain ⟨lead, trail⟩ := inherited.edges searches unwraps parsed inPieces
  apply inherited.append lead
  apply inherited.append _ trail
  exact inherited.render piece.dedent apart
    (Job.pieces_holds searches unwraps parsed inPieces) each

theorem search (inherited : Inherited job.source P) {n : Node} (searches : job.Searches p n)
    (parsed : readProgram mode job.source.text = .ok job.root)
    (done : (job.search .top job.root).failure = none) :
    ∀ edit ∈ (job.search p n).edits, P edit.text := by
  induction n using Node.induction generalizing p with
  | step n ih =>
      intro edit member
      have nested := (searches.placed parsed).nested
      rcases Job.search_cases (searches.done done) with ⟨statement, call, notes, plan, rfl, amd,
        among, decided, -, edits⟩ | ⟨statement, argument, rfl, -, edits⟩ |
        ⟨still, quiet, done', edits⟩
      · rw [edits, List.mem_singleton] at member
        subst member
        have unwraps : job.Unwraps p call plan := ⟨amd, among, notes, decided⟩
        obtain ⟨inside, found, same⟩ := unwraps.foundIn searches done
        apply inherited.moduleEdit searches unwraps parsed (Job.edits_apart nested found)
        intro edit member
        have found : edit ∈ (job.search (job.within p statement call plan) call).edits :=
          same ▸ member
        exact ih call (List.mem_singleton_self call) inside edit found
      · rw [edits, List.mem_singleton] at member
        subst member
        have stands := (nested.mem (List.mem_singleton_self argument)).1
        have value : P (job.source.render argument.span [] p.dedent) :=
          inherited.render p.dedent (.nil (Nat.le_refl 0)) stands.solid nofun
        rw [Source.returnEdit, exportStatement_eq]
        apply inherited.append (inherited.oneLine exportLead_line)
        exact inherited.append value (inherited.oneLine semicolon_line)
      · rw [edits, Job.searchAll_edits done'] at member
        obtain ⟨m, child, member⟩ := List.mem_flatMap.mp member
        exact ih m child (searches.child still quiet child) edit member

end

theorem convert {options : Options} {text output : Text}
    (converted : AmdUnwrap.convert options text = .ok output)
    (inherited : ∀ root, Inherited (.ofProgram text root) P) : P output := by
  obtain ⟨root, parsed, done, rfl⟩ := convert_ok converted
  let job : Job := ⟨root, .ofProgram text root, options.policy⟩
  have ofJob : Inherited job.source P := inherited root
  have each := ofJob.search .top parsed done
  obtain ⟨apart, -⟩ := program_edits parsed done
  rw [Source.render, apart.filter_within (Nat.le_refl _) (Nat.le_refl _)]
  have whole : (Source.ofProgram text root).text = [] ++ (text ++ []) := by simp [Source.ofProgram]
  apply ofJob.splice 0 apart whole rfl (Nat.zero_add _).symm _ each
  rintro ⟨last, -⟩
  cases last

end Inherited

/-- A conversion keeps to the line ends of its text: where each line feed stands after a carriage
return, each of the output does, and where there is no carriage return, the output has none. -/
theorem convert_keeps_line_ends {options : Options} {text output : Text}
    (converted : convert options text = .ok output) :
    ('\n' ∈ text → text.Crlf → output.Crlf) ∧ ('\r' ∉ text → '\r' ∉ output) := by
  constructor
  · intro lines crlf
    exact Inherited.convert converted fun _ => inherited_crlf crlf lines
  · intro plain
    exact Inherited.convert converted fun _ => inherited_lf plain

theorem convert_keeps_carriage_returns :
    let text : Text := ("define(['a'], function (a) \x7b\r\n  define(function () \x7b\r\n" ++
      "    b();\r\n  \x7d);\r\n  return a;\r\n\x7d);").toList
    let output : Text := "var a = require('a');\r\nb();\r\nmodule.exports = a;".toList
    convert {} text = .ok output ∧ '\n' ∈ text ∧ text.Crlf ∧ output.Crlf := by
  intro text output
  have converted : convert {} text = .ok output := ok_of_toOption (by decide +kernel)
  have lines : '\n' ∈ text := by decide +kernel
  have crlf : text.Crlf := by decide +kernel
  exact ⟨converted, lines, crlf, (convert_keeps_line_ends converted).1 lines crlf⟩

end AmdUnwrap
