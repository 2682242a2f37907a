import AmdUnwrap.Proofs.Syntax.Nested
import AmdUnwrap.Proofs.Text.Trim
import AmdUnwrap.Splice

namespace AmdUnwrap

/-- The span names a part of the text. -/
def Text.Names (text : Text) (span : Span) : Prop :=
  ∃ before part after, text = before ++ (part ++ after) ∧
    span = ⟨before.byteLength, before.byteLength + part.byteLength⟩

theorem Text.Holds.names {text : Text} {span : Span} (holds : text.Holds span) :
    text.Names span := by
  obtain ⟨before, part, after, whole, same, -⟩ := holds
  exact ⟨before, part, after, whole, same⟩

theorem Text.Names.parts {text before part after : Text} {span : Span} (names : text.Names span)
    (whole : text = before ++ (part ++ after)) (start : before.byteLength ≤ span.start)
    (stop : span.stop ≤ before.byteLength + part.byteLength) :
    ∃ kept old rest, part = kept ++ (old ++ rest) ∧
      span = ⟨before.byteLength + kept.byteLength,
        before.byteLength + kept.byteLength + old.byteLength⟩ := by
  obtain ⟨front, old, after', whole', rfl⟩ := names
  dsimp only at start stop
  obtain ⟨kept, rfl, same⟩ := Text.part_rest (whole.symm.trans whole') start
  rw [Text.byteLength_append] at stop
  rw [← List.append_assoc] at same
  obtain ⟨rest, rfl, -⟩ := Text.part_rest same.symm
    (by rw [Text.byteLength_append]; omega)
  exact ⟨kept, old, rest, List.append_assoc .., by rw [Text.byteLength_append]⟩

theorem Text.Holds.parts {text before part after : Text} {span : Span} (holds : text.Holds span)
    (whole : text = before ++ (part ++ after)) (start : before.byteLength ≤ span.start)
    (stop : span.stop ≤ before.byteLength + part.byteLength) :
    ∃ kept old rest, part = kept ++ (old ++ rest) ∧ old.Solid ∧
      span = ⟨before.byteLength + kept.byteLength,
        before.byteLength + kept.byteLength + old.byteLength⟩ := by
  obtain ⟨kept, old, rest, rfl, place⟩ := holds.names.parts whole start stop
  refine ⟨kept, old, rest, rfl, ?_, place⟩
  obtain ⟨front, same, back, whole', place', solid⟩ := holds
  have first : text.slice span = same := Text.slice_eq whole' (by rw [place']) (by rw [place'])
  have around : text = before ++ kept ++ (old ++ (rest ++ after)) := by simp [whole]
  have second : text.slice span = old := by
    apply Text.slice_eq around <;> simp [place, Text.byteLength_append]
  rwa [← second, first]

theorem Text.Holds.outside {text before gap after : Text} {span : Span} (holds : text.Holds span)
    (whole : text = before ++ (gap ++ after)) (blank : gap.Blank) :
    (span.start < before.byteLength ∨ before.byteLength + gap.byteLength ≤ span.start) ∧
      (span.stop ≤ before.byteLength ∨ before.byteLength + gap.byteLength < span.stop) := by
  obtain ⟨front, old, rest, whole', rfl, solid⟩ := holds
  have same := whole.symm.trans whole'
  constructor
  · rcases Nat.lt_or_ge front.byteLength before.byteLength with lt | le
    · exact .inl lt
    · exact .inr (Text.solid_starts_past same blank solid le)
  · rcases Nat.lt_or_ge (before.byteLength + gap.byteLength)
      (front.byteLength + old.byteLength) with lt | le
    · exact .inr lt
    · exact .inl (Text.solid_stops_before same blank solid le)

/-- The spans of the edits stand in order between two offsets, each a solid part of the text. -/
inductive Apart (text : Text) : Nat → List Edit → Nat → Prop where
  | nil {lo hi : Nat} : lo ≤ hi → Apart text lo [] hi
  | cons {lo hi : Nat} {edit : Edit} {edits : List Edit} : lo ≤ edit.span.start →
      text.Holds edit.span → Apart text edit.span.stop edits hi → Apart text lo (edit :: edits) hi

namespace Apart

variable {text : Text} {lo mid hi : Nat} {edits more : List Edit}

theorem le (apart : Apart text lo edits hi) : lo ≤ hi := by
  induction apart with
  | nil le => exact le
  | cons start holds _ ih =>
      have := holds.lt
      omega

theorem append (first : Apart text lo edits mid) (later : Apart text mid more hi) :
    Apart text lo (edits ++ more) hi := by
  induction first with
  | nil le =>
      cases later with
      | nil le' => exact .nil (by omega)
      | cons start holds rest => exact .cons (by omega) holds rest
  | cons start holds _ ih => exact .cons start holds (ih later)

theorem reach {hi' : Nat} (apart : Apart text lo edits hi) (le : hi ≤ hi') :
    Apart text lo edits hi' := by
  have whole := apart.append (.nil le)
  rwa [List.append_nil] at whole

theorem bounds (apart : Apart text lo edits hi) :
    ∀ edit ∈ edits, lo ≤ edit.span.start ∧ edit.span.start < edit.span.stop ∧
      edit.span.stop ≤ hi := by
  induction apart with
  | nil _ => simp
  | cons start holds rest ih =>
      have lt := holds.lt
      rw [List.forall_mem_cons]
      refine ⟨⟨start, lt, rest.le⟩, fun edit member => ?_⟩
      obtain ⟨first, between, last⟩ := ih edit member
      exact ⟨by omega, between, last⟩

theorem tighten {lo' hi' : Nat} (apart : Apart text lo edits hi) (le : lo' ≤ hi')
    (inside : ∀ edit ∈ edits, text.Holds edit.span →
      lo' ≤ edit.span.start ∧ edit.span.stop ≤ hi') : Apart text lo' edits hi' := by
  induction apart generalizing lo' with
  | nil _ => exact .nil le
  | cons start holds rest ih =>
      rw [List.forall_mem_cons] at inside
      obtain ⟨first, others⟩ := inside
      obtain ⟨low, high⟩ := first holds
      apply Apart.cons low holds
      apply ih high
      intro edit member holds
      exact ⟨(rest.bounds edit member).1, (others edit member holds).2⟩

theorem flatMap {ns : List Node} (nested : Nested text lo ns hi) {found : Node → List Edit}
    (each : ∀ n ∈ ns, Apart text n.span.start (found n) n.span.stop) :
    Apart text lo (ns.flatMap found) hi := by
  induction nested with
  | nil le => exact .nil le
  | node start _ _ _ _ ih =>
      rw [List.forall_mem_cons] at each
      have first := append (.nil start) each.1
      exact first.append (ih each.2)

theorem filter_before {span : Span} (apart : Apart text lo edits hi) (before : hi ≤ span.start) :
    edits.filter (·.span.within span) = [] := by
  rw [List.filter_eq_nil_iff]
  intro edit member
  obtain ⟨-, between, last⟩ := apart.bounds edit member
  simp [Span.within]
  omega

theorem filter_after {span : Span} (apart : Apart text lo edits hi) (after : span.stop ≤ lo) :
    edits.filter (·.span.within span) = [] := by
  rw [List.filter_eq_nil_iff]
  intro edit member
  obtain ⟨first, between, -⟩ := apart.bounds edit member
  simp [Span.within]
  omega

theorem filter_within {span : Span} (apart : Apart text lo edits hi) (start : span.start ≤ lo)
    (stop : hi ≤ span.stop) : edits.filter (·.span.within span) = edits := by
  rw [List.filter_eq_self]
  intro edit member
  obtain ⟨first, -, last⟩ := apart.bounds edit member
  simp [Span.within]
  omega

end Apart

/-- The spans of the edits stand in order between two offsets, none of them empty. -/
inductive Ascending (text : Text) : Nat → List Edit → Nat → Prop where
  | nil {lo hi : Nat} : lo ≤ hi → Ascending text lo [] hi
  | cons {lo hi : Nat} {edit : Edit} {edits : List Edit} : lo ≤ edit.span.start →
      text.Names edit.span → edit.span.start < edit.span.stop →
      Ascending text edit.span.stop edits hi → Ascending text lo (edit :: edits) hi

namespace Ascending

variable {text : Text} {lo mid hi : Nat} {edits more : List Edit}

theorem le (ascending : Ascending text lo edits hi) : lo ≤ hi := by
  induction ascending with
  | nil le => exact le
  | cons start _ lt _ ih => omega

theorem append (first : Ascending text lo edits mid) (later : Ascending text mid more hi) :
    Ascending text lo (edits ++ more) hi := by
  induction first with
  | nil le =>
      cases later with
      | nil le' => exact .nil (by omega)
      | cons start names lt rest => exact .cons (by omega) names lt rest
  | cons start names lt _ ih => exact .cons start names lt (ih later)

end Ascending

theorem Apart.ascending {text : Text} {lo hi : Nat} {edits : List Edit}
    (apart : Apart text lo edits hi) : Ascending text lo edits hi := by
  induction apart with
  | nil le => exact .nil le
  | cons start holds _ ih => exact .cons start holds.names holds.lt ih

/-- The edits take the places of their spans, and what stands between them is moved. -/
inductive Splices (move : Nat → Text → Text) : Nat → List Edit → Text → Text → Prop where
  | rest {offset : Nat} {text : Text} : Splices move offset [] text (move offset text)
  | edit {offset : Nat} {kept old rest new : Text} {edit : Edit} {edits : List Edit} :
      edit.span = ⟨offset + kept.byteLength, offset + kept.byteLength + old.byteLength⟩ →
      old ≠ [] → Splices move edit.span.stop edits rest new →
      Splices move offset (edit :: edits) (kept ++ (old ++ rest))
        (move offset kept ++ (edit.text ++ new))

namespace Source

theorem splice_splices (s : Source) (dedent : Nat) {lo hi : Nat} {edits : List Edit}
    (apart : Apart s.text lo edits hi) {before part after : Text}
    (whole : s.text = before ++ (part ++ after)) (start : lo = before.byteLength)
    (stop : hi = before.byteLength + part.byteLength) :
    Splices (s.shift dedent 0) lo edits part (s.splice dedent hi lo edits) := by
  induction apart generalizing before part with
  | @nil lo hi _ =>
      have copied : s.slice ⟨lo, hi⟩ = part := Text.slice_eq whole start stop
      rw [splice, copy, copied]
      exact .rest
  | @cons lo hi edit edits low holds apart ih =>
      have le := apart.le
      obtain ⟨kept, old, rest, rfl, solid, span⟩ := holds.parts whole (by omega) (by omega)
      have width := (Text.byteLength_append kept (old ++ rest)).trans
        (congrArg _ (Text.byteLength_append old rest))
      have first : s.text = before ++ (kept ++ (old ++ rest ++ after)) := by simp [whole]
      have copied : s.slice ⟨lo, edit.span.start⟩ = kept := Text.slice_eq first start (by rw [span])
      have others : s.text = before ++ kept ++ old ++ (rest ++ after) := by simp [whole]
      have later := ih others (by simp [span, Text.byteLength_append, Nat.add_assoc])
        (by simp [Text.byteLength_append]; omega)
      rw [splice, copy, copied, List.append_assoc]
      exact .edit (by rw [span, start]) solid.ne_nil later

theorem shift_append (s : Source) (dedent budget offset : Nat) (a b : Text) :
    ∃ left, s.shift dedent budget offset (a ++ b) =
      s.shift dedent budget offset a ++ s.shift dedent left (offset + a.byteLength) b := by
  induction a generalizing budget offset with
  | nil => exact ⟨budget, rfl⟩
  | cons c cs ih =>
      have width : offset + Text.byteLength (c :: cs) =
          offset + c.utf8Size + Text.byteLength cs := (Nat.add_assoc ..).symm
      rw [width, List.cons_append]
      simp only [shift]
      split
      · obtain ⟨left, same⟩ := ih (if s.inLiteral (offset + c.utf8Size) then 0 else dedent)
          (offset + c.utf8Size)
        exact ⟨left, congrArg _ same⟩
      split
      · exact ih (budget - 1) (offset + c.utf8Size)
      · obtain ⟨left, same⟩ := ih 0 (offset + c.utf8Size)
        exact ⟨left, congrArg _ same⟩

def Opens (text : Text) : Prop := ∀ c, text.head? = some c → isBlank c = false

theorem Opens.start {front back : Text} (opens : Opens (front ++ back)) : Opens front := by
  intro c first
  exact opens c (by rw [List.head?_append, first]; rfl)

theorem opens_of_solid {part : Text} (solid : part.Solid) (rest : Text) : Opens (part ++ rest) := by
  obtain ⟨⟨c, first, opens⟩, -⟩ := solid
  intro e same
  rw [List.head?_append, first] at same
  cases same
  exact opens

theorem shift_opens (s : Source) (dedent budget offset : Nat) {text : Text} (opens : Opens text) :
    s.shift dedent budget offset text = s.shift dedent 0 offset text := by
  cases text with
  | nil => rfl
  | cons c cs =>
      have solid := opens c rfl
      have indent : isIndent c = false := by
        cases h : isIndent c with
        | false => rfl
        | true => exact absurd (isBlank_of_isIndent h) (Bool.eq_false_iff.mp solid)
      simp [shift, indent]

theorem shift_blank (s : Source) (dedent budget offset : Nat) {text : Text} (blank : text.Blank) :
    Text.Blank (s.shift dedent budget offset text) := by
  induction text generalizing budget offset with
  | nil => exact blank
  | cons c cs ih =>
      obtain ⟨first, others⟩ := List.forall_mem_cons.mp blank
      simp only [shift]
      split
      · exact List.forall_mem_cons.mpr ⟨first, ih _ _ others⟩
      split
      · exact ih _ _ others
      · exact List.forall_mem_cons.mpr ⟨first, ih _ _ others⟩

theorem shift_parted (s : Source) (dedent offset : Nat) (head : Text) {gap tail : Text}
    (blank : gap.Blank) (opens : Opens tail) :
    ∃ between, (Text.Blank between ∧ (gap = [] → between = [])) ∧
      s.shift dedent 0 offset (head ++ (gap ++ tail)) = s.shift dedent 0 offset head ++
        (between ++ s.shift dedent 0 (offset + head.byteLength + gap.byteLength) tail) := by
  obtain ⟨left, first⟩ := s.shift_append dedent 0 offset head (gap ++ tail)
  obtain ⟨left', second⟩ := s.shift_append dedent left (offset + head.byteLength) gap tail
  refine ⟨s.shift dedent left (offset + head.byteLength) gap,
    ⟨s.shift_blank _ _ _ blank, ?_⟩, ?_⟩
  · rintro rfl
    rfl
  · rw [first, second, s.shift_opens dedent left' _ opens]

/-- A text around a gap moves left in two parts as it does in one, but for what is left of the gap,
and so does less of it. -/
def MovesAround (s : Source) (dedent : Nat) (left : Text → Prop) (head gap tail : Text) : Prop :=
  ∀ (offset : Nat) (head' tail' : Text), head' <:+ head → tail' <+: tail → ∃ between, left between ∧
    s.shift dedent 0 offset (head' ++ (gap ++ tail')) = s.shift dedent 0 offset head' ++
      (between ++ s.shift dedent 0 (offset + head'.byteLength + gap.byteLength) tail')

theorem splice_around_gap (s : Source) (dedent : Nat) {left : Text → Prop} {lo cut next hi : Nat}
    {front back : List Edit} (frontAscends : Ascending s.text lo front cut)
    (backAscends : Ascending s.text next back hi) {before head gap tail after : Text}
    (whole : s.text = before ++ (head ++ (gap ++ (tail ++ after)))) (start : lo = before.byteLength)
    (cut_eq : cut = lo + head.byteLength) (next_eq : next = cut + gap.byteLength)
    (stop : hi = next + tail.byteLength) (moves : s.MovesAround dedent left head gap tail) :
    ∃ between, left between ∧ s.splice dedent hi lo (front ++ back) =
      s.splice dedent cut lo front ++ (between ++ s.splice dedent hi next back) := by
  induction frontAscends generalizing before head with
  | @nil lo cut _ =>
      have headCopied : s.slice ⟨lo, cut⟩ = head :=
        Text.slice_eq whole start (by rw [cut_eq, start])
      have last : s.text = before ++ head ++ gap ++ (tail ++ after) := by simp [whole]
      cases backAscends with
      | nil _ =>
          obtain ⟨between, among, same⟩ := moves lo head tail List.suffix_rfl List.prefix_rfl
          have all : s.text = before ++ (head ++ (gap ++ tail) ++ after) := by simp [whole]
          have copied : s.slice ⟨lo, hi⟩ = head ++ (gap ++ tail) :=
            Text.slice_eq all start (by simp [Text.byteLength_append]; omega)
          have tailCopied : s.slice ⟨next, hi⟩ = tail :=
            Text.slice_eq last (by simp [Text.byteLength_append]; omega)
              (by simp [Text.byteLength_append]; omega)
          refine ⟨between, among, ?_⟩
          simp only [List.append_nil, splice, copy, copied, headCopied, tailCopied]
          rw [same, next_eq, cut_eq]
      | @cons _ _ edit edits low names _ ascending =>
          have le := ascending.le
          obtain ⟨kept, old, rest, rfl, span⟩ := names.parts last
            (by simp [Text.byteLength_append]; omega) (by simp [Text.byteLength_append]; omega)
          obtain ⟨between, among, same⟩ := moves lo head kept List.suffix_rfl
            (List.prefix_append ..)
          have first : s.text = before ++ (head ++ (gap ++ kept) ++ (old ++ rest ++ after)) := by
            simp [whole]
          have copied : s.slice ⟨lo, edit.span.start⟩ = head ++ (gap ++ kept) :=
            Text.slice_eq first start (by simp [span, Text.byteLength_append]; omega)
          have second : s.text = before ++ head ++ gap ++ (kept ++ (old ++ rest ++ after)) := by
            simp [whole]
          have keptCopied : s.slice ⟨next, edit.span.start⟩ = kept :=
            Text.slice_eq second (by simp [Text.byteLength_append]; omega) (by rw [span])
          refine ⟨between, among, ?_⟩
          simp only [List.nil_append, splice, copy, copied, headCopied, keptCopied]
          rw [same, next_eq, cut_eq]
          simp only [List.append_assoc]
  | @cons lo cut edit edits low names _ ascending ih =>
      have le := ascending.le
      obtain ⟨kept, old, rest, rfl, span⟩ := names.parts whole (by omega) (by omega)
      have others : s.text = before ++ kept ++ old ++ (rest ++ (gap ++ (tail ++ after))) := by
        simp [whole]
      -- The part before the gap that the remaining edits stand in is a suffix of the whole part.
      have shorter : rest <:+ kept ++ (old ++ rest) :=
        (List.suffix_append ..).trans (List.suffix_append ..)
      obtain ⟨between, among, same⟩ := ih others
        (by simp [span, Text.byteLength_append, Nat.add_assoc])
        (by simp [span, cut_eq, start, Text.byteLength_append, Nat.add_assoc])
        next_eq fun offset head' tail' before after =>
          moves offset head' tail' (before.trans shorter) after
      refine ⟨between, among, ?_⟩
      rw [List.cons_append]
      simp only [splice, same, List.append_assoc]

theorem splice_parted (s : Source) (dedent : Nat) {lo cut next hi : Nat} {front back : List Edit}
    (frontApart : Apart s.text lo front cut) (backApart : Apart s.text next back hi)
    {before head gap tail after : Text}
    (whole : s.text = before ++ (head ++ (gap ++ (tail ++ after)))) (start : lo = before.byteLength)
    (cut_eq : cut = lo + head.byteLength) (next_eq : next = cut + gap.byteLength)
    (stop : hi = next + tail.byteLength) (blank : gap.Blank) (opens : Opens tail) :
    ∃ between, (Text.Blank between ∧ (gap = [] → between = [])) ∧
      s.splice dedent hi lo (front ++ back) =
        s.splice dedent cut lo front ++ (between ++ s.splice dedent hi next back) := by
  apply s.splice_around_gap dedent frontApart.ascending backApart.ascending whole start cut_eq
    next_eq stop
  rintro offset head' tail' - ⟨rest, rfl⟩
  exact s.shift_parted dedent offset head' blank opens.start

end Source

end AmdUnwrap
