import AmdUnwrap.Proofs.Module

/-!
The body of a factory as it stands where its call stood: trimmed, with the statements that load
its dependencies after its directives, and nothing lost between its statements but white space.
-/

namespace AmdUnwrap
open Amd

namespace Apart

variable {text before after : Text} {lo hi : Nat} {edits : List Edit}

theorem trimmed {left part right : Text} (apart : Apart text lo edits hi)
    (whole : text = before ++ ((left ++ (part ++ right)) ++ after)) (start : lo = before.byteLength)
    (stop : hi = lo + left.byteLength + part.byteLength + right.byteLength) (leftBlank : left.Blank)
    (rightBlank : right.Blank) :
    Apart text (lo + left.byteLength) edits (lo + left.byteLength + part.byteLength) := by
  apply apart.tighten (Nat.le_add_right _ _)
  intro edit member holds
  obtain ⟨low, -, high⟩ := apart.bounds edit member
  have front : text = before ++ (left ++ (part ++ right ++ after)) := by simp [whole]
  have back : text = before ++ left ++ part ++ (right ++ after) := by simp [whole]
  have starts := (holds.outside front leftBlank).1
  have stops := (holds.outside back rightBlank).2
  simp only [Text.byteLength_append] at stops
  omega

theorem eq_nil_of_blank {inner : Text} (apart : Apart text lo edits hi)
    (whole : text = before ++ (inner ++ after)) (start : lo = before.byteLength)
    (stop : hi = lo + inner.byteLength) (blank : inner.Blank) : edits = [] := by
  cases apart with
  | nil _ => rfl
  | cons low holds rest =>
      have le := rest.le
      obtain ⟨kept, old, rest, rfl, solid, -⟩ := holds.parts whole (by omega) (by omega)
      obtain ⟨⟨c, first, opens⟩, -⟩ := solid
      have member : c ∈ old := List.mem_of_mem_head? first
      rw [blank c (by simp [member])] at opens
      cases opens

theorem eq_nil_of_le (apart : Apart text lo edits hi) (le : hi ≤ lo) : edits = [] := by
  cases apart with
  | nil _ => rfl
  | cons low holds rest =>
      have := rest.le
      have := holds.lt
      omega

end Apart

theorem Text.Encloses.interior {text : Text} {span : Span} {body : List Node}
    (encloses : text.Encloses span body) :
    ∃ before inner after : Text, text = before ++ ('{' :: inner ++ '}' :: after) ∧
      span = ⟨before.byteLength, before.byteLength + inner.byteLength + 2⟩ ∧
      Amd.interior span = ⟨before.byteLength + 1, before.byteLength + 1 + inner.byteLength⟩ := by
  obtain ⟨⟨before, inner, after, whole, rfl⟩, -⟩ := encloses
  refine ⟨before, inner, after, whole, rfl, ?_⟩
  simp [Amd.interior]
  omega

/-- What becomes of a text up to the end of its directives, if it has any. -/
def Opening (move : Nat → Text → Text) (offset : Nat) (edits : List Edit) (content : Text) :
    Option Span → Option Text → Prop
  | none, front => front = none
  | some directives, front => ∃ head rest first later new, content = head ++ rest ∧
      offset + head.byteLength = directives.stop ∧ edits = first ++ later ∧
      (∀ edit ∈ later, directives.stop ≤ edit.span.start) ∧
      Splices move offset first head new ∧ front = some new

/-- A block of statements stands between the two parts of a text; only white space is lost. -/
structure Interposes (separator : Text) (block : List Text) (front back : Option Text)
    (moved result : Text) : Prop where
  parts : ∃ gap : Text, moved = front.getD [] ++ (gap ++ back.getD []) ∧ gap.Blank ∧
    (front = none ∨ back = none → gap = [])
  result : result = separator.intercalate (front.toList ++ block ++ back.toList)

/-- What the text between two braces becomes, with statements that load other modules in it. -/
inductive Rebuilt (move : Nat → Text → Text) (offset : Nat) (edits : List Edit)
    (directives : Option Span) (separator : Text) (block : List Text) : Text → Text → Prop where
  | blank {inner : Text} : inner.Blank → edits = [] →
      Rebuilt move offset edits directives separator block inner (separator.intercalate block)
  | solid {left part right moved result : Text} {front back : Option Text} : left.Blank →
      right.Blank → part.Solid → Splices move (offset + left.byteLength) edits part moved →
      Opening move (offset + left.byteLength) edits part directives front →
      Interposes separator block front back moved result →
      Rebuilt move offset edits directives separator block (left ++ (part ++ right)) result

theorem directiveSpan_some {body : List Node} {directives : Span}
    (found : directiveSpan body = some directives) :
    ∃ front back last, body = front ++ back ∧ front.getLast? = some last ∧
      last.kind = .directive ∧ directives.stop = last.span.stop := by
  unfold directiveSpan at found
  dsimp only at found
  split at found
  next first last _ ending =>
    cases found
    have directive := List.all_eq_true.mp List.all_takeWhile last (List.mem_of_getLast? ending)
    refine ⟨_, _, last, List.takeWhile_append_dropWhile.symm, ending, ?_, rfl⟩
    unfold isDirective at directive
    split at directive
    · assumption
    · cases directive
  · cases found

theorem Text.Solid.eq_nil_of_blank {front back : Text} (solid : Solid (front ++ back))
    (blank : back.Blank) : back = [] := by
  obtain ⟨-, ⟨c, last, closes⟩⟩ := solid
  by_cases some : back = []
  · exact some
  · rw [List.getLast?_append, List.getLast?_eq_some_getLast some] at last
    cases last
    rw [blank _ (List.getLast_mem some)] at closes
    cases closes

namespace Source

theorem render_past (s : Source) (dedent : Nat) {lo hi lo' hi' : Nat} {others edits : List Edit}
    {span : Span}
    (before : Apart s.text lo others hi) (le : hi ≤ span.start) (apart : Apart s.text lo' edits hi')
    (start : span.start ≤ lo') (stop : hi' ≤ span.stop) :
    s.render span (others ++ edits) dedent = s.splice dedent span.stop span.start edits := by
  rw [render, List.filter_append, before.filter_before le, apart.filter_within start stop,
    List.nil_append]

/-- A solid text is rendered in two parts as it is in one, but for the white space between. -/
theorem render_parted (s : Source) (dedent : Nat) {lo cut hi o o' : Nat}
    {before head rest after : Text}
    {others front back : List Edit} (whole : s.text = before ++ (head ++ (rest ++ after)))
    (start : lo = before.byteLength) (cut_eq : cut = lo + head.byteLength)
    (stop : hi = cut + rest.byteLength) (solid : Text.Solid (head ++ rest))
    (outside : Apart s.text o others o') (le : o' ≤ lo) (frontApart : Apart s.text lo front cut)
    (backApart : Apart s.text cut back hi) :
    s.render ⟨lo, cut⟩ (others ++ (front ++ back)) dedent = s.splice dedent cut lo front ∧
      ∃ gap, Text.Blank gap ∧ (s.trim ⟨cut, hi⟩ = none → gap = []) ∧
        s.splice dedent hi lo (front ++ back) = s.splice dedent cut lo front ++
          (gap ++ ((s.trim ⟨cut, hi⟩).map
            (s.render · (others ++ (front ++ back)) dedent)).getD []) := by
  constructor
  · rw [render, List.filter_append, List.filter_append, outside.filter_before le,
      frontApart.filter_within (Nat.le_refl _) (Nat.le_refl _),
      backApart.filter_after (Nat.le_refl _), List.nil_append, List.append_nil]
  have place : s.text = before ++ head ++ (rest ++ after) := by simp [whole]
  have region : (⟨cut, hi⟩ : Span) = ⟨Text.byteLength (before ++ head),
      Text.byteLength (before ++ head) + rest.byteLength⟩ := by
    rw [Text.byteLength_append, ← start, ← cut_eq, ← stop]
  rcases Text.trim_cases place region with ⟨none, blank⟩ |
    ⟨gap, tail, right, rfl, gapBlank, rightBlank, tailSolid, some⟩
  · obtain rfl := solid.eq_nil_of_blank blank
    obtain rfl := backApart.eq_nil_of_le (by simp [stop, Text.byteLength])
    have same : hi = cut := by simp [stop, Text.byteLength]
    refine ⟨[], List.forall_mem_nil _, fun _ => rfl, ?_⟩
    rw [trim, none]
    simp [same]
  · rw [Text.byteLength_append, Text.byteLength_append] at stop
    have startBlank : s.text = before ++ head ++ ((gap ++ (tail ++ right)) ++ after) := place
    obtain rfl : right = [] := by
      have solid' : Text.Solid (head ++ (gap ++ tail) ++ right) := by
        simpa using solid
      exact solid'.eq_nil_of_blank rightBlank
    have inTail := backApart.trimmed startBlank (by simp [cut_eq, start, Text.byteLength_append])
      (by rw [stop]; omega) gapBlank rightBlank
    have rest : cut + gap.byteLength + tail.byteLength = hi := by
      simp [stop, Text.byteLength]
      omega
    have opens : Opens tail := by simpa using opens_of_solid tailSolid []
    have parts : s.text = before ++ (head ++ (gap ++ (tail ++ after))) := by
      simp [whole]
    obtain ⟨between, ⟨isBlank, -⟩, same⟩ := s.splice_parted dedent frontApart inTail parts start
      cut_eq rfl rfl gapBlank opens
    have place' : Text.byteLength (before ++ head) = cut := by
      rw [Text.byteLength_append, cut_eq, start]
    rw [place', rest] at some
    rw [rest] at inTail same
    have earlier := (outside.append (.nil le)).append frontApart
    refine ⟨between, isBlank, fun none => ?_, ?_⟩
    · rw [trim, some] at none
      cases none
    · have rendered : s.render ⟨cut + gap.byteLength, hi⟩ _ dedent = _ :=
        s.render_past dedent earlier (Nat.le_add_right _ _) inTail (Nat.le_refl _) (Nat.le_refl _)
      rw [List.append_nil, List.append_assoc] at rendered
      rw [same, trim, some, Option.map_some, Option.getD_some, rendered]

theorem edits_around_directives {text : Text} {lo hi : Nat} {before left part right after : Text}
    {body : List Node} {span : Span} {found : Node → List Edit}
    (whole : text = before ++ ((left ++ (part ++ right)) ++ after)) (start : lo = before.byteLength)
    (stop : hi = lo + left.byteLength + part.byteLength + right.byteLength) (leftBlank : left.Blank)
    (rightBlank : right.Blank) (nested : Nested text lo body hi)
    (each : ∀ n ∈ body, Apart text n.span.start (found n) n.span.stop)
    (directives : directiveSpan body = some span) :
    ∃ head rest front back, part = head ++ rest ∧ body.flatMap found = front ++ back ∧
      span.stop = lo + left.byteLength + head.byteLength ∧
      Apart text (lo + left.byteLength) front span.stop ∧
      Apart text span.stop back (lo + left.byteLength + part.byteLength) := by
  obtain ⟨heads, others, last, rfl, ending, directive, end_⟩ := directiveSpan_some directives
  have apart := (Apart.flatMap nested each).trimmed whole start stop leftBlank rightBlank
  obtain ⟨headsNested, restNested⟩ := nested.split_last ending
  obtain ⟨eachHead, eachOther⟩ := List.forall_mem_append.mp each
  have frontApart := Apart.flatMap headsNested eachHead
  have backApart := Apart.flatMap restNested eachOther
  have stands := (headsNested.mem (List.mem_of_getLast? ending)).1
  have bounds := headsNested.bounds last (List.mem_of_getLast? ending)
  have holds : text.Holds last.span := stands.solid (stands.filled (by rw [directive]; rfl))
  -- The last directive stands in the trimmed body as an edit would.
  have place : Apart text lo [⟨last.span, []⟩] hi := .cons bounds.1 holds (.nil restNested.le)
  obtain ⟨low, filled, high⟩ := (place.trimmed whole start stop leftBlank rightBlank).bounds _
    (List.mem_singleton_self _)
  dsimp only at low filled high
  have inner : text = before ++ left ++ (part ++ (right ++ after)) := by simp [whole]
  obtain ⟨kept, old, rest, rfl, -, lastSpan⟩ := holds.parts inner
    (by rw [Text.byteLength_append]; omega) (by rw [Text.byteLength_append]; omega)
  have cut : last.span.stop = lo + left.byteLength + Text.byteLength (kept ++ old) := by
    simp [lastSpan, start, Text.byteLength_append, Nat.add_assoc]
  have flat : (heads ++ others).flatMap found = _ := List.flatMap_append
  have inside := List.forall_mem_append.mp (flat ▸ apart.bounds)
  have frontIn := frontApart.tighten (by omega) fun edit member _ =>
    ⟨(inside.1 edit member).1, (frontApart.bounds edit member).2.2⟩
  have backIn := backApart.tighten high fun edit member _ =>
    ⟨(backApart.bounds edit member).1, (inside.2 edit member).2.2⟩
  rw [end_]
  exact ⟨kept ++ old, rest, _, _, (List.append_assoc ..).symm, flat, cut, frontIn, backIn⟩

theorem interposes (s : Source) (dedent : Nat) (region : Span) {lo hi o o' : Nat}
    {before left part right after : Text} {body : List Node} {others : List Edit}
    {found : Node → List Edit}
    (whole : s.text = before ++ ((left ++ (part ++ right)) ++ after))
    (start : lo = before.byteLength)
    (stop : hi = lo + left.byteLength + part.byteLength + right.byteLength) (leftBlank : left.Blank)
    (rightBlank : right.Blank) (solid : part.Solid) (nested : Nested s.text lo body hi)
    (each : ∀ n ∈ body, Apart s.text n.span.start (found n) n.span.stop)
    (outside : Apart s.text o others o') (le : o' ≤ lo) :
    let content : Span := ⟨lo + left.byteLength, lo + left.byteLength + part.byteLength⟩
    let parted := s.partedBody (.statements region (directiveSpan body)) content
    let render := (s.render · (others ++ body.flatMap found) dedent)
    ∃ front back moved,
      Splices (s.shift dedent 0) content.start (body.flatMap found) part moved ∧
      Opening (s.shift dedent 0) content.start (body.flatMap found) part (directiveSpan body)
        front ∧
      ∀ separator block, Interposes separator block front back moved (separator.intercalate
        ((parted.1.map render).toList ++ block ++ (parted.2.map render).toList)) := by
  intro content parted render
  have apart := (Apart.flatMap nested each).trimmed whole start stop leftBlank rightBlank
  have inner : s.text = before ++ left ++ (part ++ (right ++ after)) := by simp [whole]
  have spliced := s.splice_splices dedent apart inner
    (by simp [start, Text.byteLength_append]) (by simp [start, Text.byteLength_append])
  cases directives : directiveSpan body with
  | none =>
      refine ⟨none, some _, _, spliced, rfl, fun separator block =>
        ⟨⟨[], rfl, nofun, fun _ => rfl⟩, ?_⟩⟩
      have rendered : render content =
          s.splice dedent content.stop content.start (body.flatMap found) :=
        s.render_past dedent outside (Nat.le_trans le (Nat.le_add_right _ _)) apart (Nat.le_refl _)
          (Nat.le_refl _)
      simp only [parted, directives, partedBody, Option.map_none, Option.map_some, rendered]
      rfl
  | some span =>
      obtain ⟨head, rest, frontEdits, backEdits, rfl, flat, cut, frontIn, backIn⟩ :=
        edits_around_directives whole start stop leftBlank rightBlank nested each directives
      have end' : lo + left.byteLength + Text.byteLength (head ++ rest) =
          span.stop + rest.byteLength := by
        rw [cut, Text.byteLength_append, Nat.add_assoc _ head.byteLength]
      have parts : s.text = before ++ left ++ (head ++ (rest ++ (right ++ after))) := by
        simp [inner]
      have outside' := le.trans (Nat.le_add_right lo left.byteLength)
      have start' : lo + left.byteLength = Text.byteLength (before ++ left) := by
        rw [start, Text.byteLength_append]
      obtain ⟨rendered, gap, isBlank, closed, same⟩ := s.render_parted dedent parts start' cut end'
        solid outside outside' frontIn backIn
      rw [← flat] at rendered same
      have opening := s.splice_splices dedent frontIn parts start' (by rw [cut, start'])
      refine ⟨_, (s.trim ⟨span.stop, content.stop⟩).map render, _, spliced,
        ⟨head, rest, _, _, _, rfl, cut.symm, flat, ?_, opening, rfl⟩, fun separator block => ?_⟩
      · intro edit member
        exact (backIn.bounds edit member).1
      refine ⟨⟨gap, same, isBlank, ?_⟩, ?_⟩
      · rintro (none | none)
        · cases none
        · exact closed (Option.map_eq_none_iff.mp none)
      · have first : parted.1.map render = some (render ⟨content.start, span.stop⟩) := by
          simp only [parted, directives, partedBody, Option.map_some]
        have second : parted.2 = s.trim ⟨span.stop, content.stop⟩ := by
          simp only [parted, directives, partedBody]
        rw [first, second, ← rendered]

end Source

end AmdUnwrap
