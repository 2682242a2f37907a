import AmdUnwrap.Proofs.Body

namespace AmdUnwrap
open Amd

theorem Span.within_iff {inner outer : Span} :
    inner.within outer = true ↔ outer.start ≤ inner.start ∧ inner.stop ≤ outer.stop := by
  rw [Span.within, Bool.and_eq_true, decide_eq_true_eq, decide_eq_true_eq]

theorem Span.within_trans {a b c : Span} (inner : a.within b = true) (outer : b.within c = true) :
    a.within c = true := by
  rw [within_iff] at *
  omega

namespace Apart

variable {text : Text} {lo hi : Nat} {edits : List Edit}

theorem filter (p : Edit → Bool) (apart : Apart text lo edits hi) :
    Apart text lo (edits.filter p) hi := by
  induction apart with
  | nil le => exact .nil le
  | @cons lo _ edit edits start holds _ ih =>
      have lt := holds.lt
      by_cases kept : p edit = true
      · rw [List.filter_cons_of_pos kept]
        exact .cons start holds ih
      · rw [List.filter_cons_of_neg kept]
        exact .append (.nil (by omega)) ih

theorem within (apart : Apart text lo edits hi) (span : Span) (le : span.start ≤ span.stop) :
    Apart text span.start (edits.filter (·.span.within span)) span.stop := by
  apply (apart.filter _).tighten le
  intro edit member _
  exact Span.within_iff.mp (List.mem_filter.mp member).2

theorem filter_upto {start stop : Nat} (apart : Apart text lo edits hi) (le : hi ≤ stop) :
    edits.filter (·.span.within ⟨start, stop⟩) = edits.filter (·.span.within ⟨start, hi⟩) := by
  apply List.filter_congr
  intro edit member
  obtain ⟨-, -, high⟩ := apart.bounds edit member
  simp [Span.within, high, Nat.le_trans high le]

theorem filter_from {start stop : Nat} (apart : Apart text lo edits hi) (le : start ≤ lo) :
    edits.filter (·.span.within ⟨start, stop⟩) = edits.filter (·.span.within ⟨lo, stop⟩) := by
  apply List.filter_congr
  intro edit member
  obtain ⟨low, -, -⟩ := apart.bounds edit member
  simp [Span.within, low, Nat.le_trans le low]

end Apart

theorem Text.Names.holds {text : Text} {span : Span} (names : text.Names span)
    (solid : (text.slice span).Solid) : text.Holds span := by
  obtain ⟨before, part, after, whole, rfl⟩ := names
  rw [Text.slice_eq whole rfl rfl] at solid
  exact ⟨before, part, after, whole, rfl, solid⟩

theorem Text.Holds.upto {text : Text} {outer inner : Span} (outerHolds : text.Holds outer)
    (innerHolds : text.Holds inner) (inside : inner.within outer = true) :
    text.Holds ⟨outer.start, inner.stop⟩ := by
  obtain ⟨before, part, after, whole, rfl, ⟨c, first, opens⟩, -⟩ := outerHolds
  obtain ⟨low, high⟩ := Span.within_iff.mp inside
  obtain ⟨kept, old, rest, rfl, solid, rfl⟩ := innerHolds.parts whole low high
  refine ⟨before, kept ++ old, rest ++ after, by simp [whole], ?_, ?_, ?_⟩
  · simp [Text.byteLength_append, Nat.add_assoc]
  · cases kept with
    | nil => exact solid.1
    | cons e kept => exact ⟨c, first, opens⟩
  · obtain ⟨-, ⟨e, last, closes⟩⟩ := solid
    exact ⟨e, by rw [List.getLast?_append, last]; rfl, closes⟩

theorem Text.Holds.past {text : Text} {outer inner : Span} (outerHolds : text.Holds outer)
    (innerHolds : text.Holds inner) (inside : inner.within outer = true) :
    text.Names ⟨inner.stop, outer.stop⟩ := by
  obtain ⟨before, part, after, whole, rfl, -⟩ := outerHolds
  obtain ⟨low, high⟩ := Span.within_iff.mp inside
  obtain ⟨kept, old, rest, rfl, -, rfl⟩ := innerHolds.parts whole low high
  refine ⟨before ++ kept ++ old, rest, after, by simp [whole], ?_⟩
  simp [Text.byteLength_append, Nat.add_assoc]

theorem Text.Encloses.names {text : Text} {block : Span} {body : List Node}
    (encloses : text.Encloses block body) : text.Names (Amd.interior block) := by
  obtain ⟨before, inner, after, whole, -, place⟩ := encloses.interior
  refine ⟨before ++ ['{'], inner, '}' :: after, by simp [whole], ?_⟩
  rw [place, Text.byteLength_append]
  rfl

theorem Text.trim_holds {text before inner after : Text} {region span : Span}
    (whole : text = before ++ (inner ++ after))
    (place : region = ⟨before.byteLength, before.byteLength + inner.byteLength⟩)
    (found : text.trim region = some span) : text.Holds span ∧ span.within region = true := by
  rcases Text.trim_cases whole place with ⟨none, -⟩ | ⟨left, part, right, rfl, -, -, solid, some⟩
  · rw [none] at found
    cases found
  · cases some.symm.trans found
    refine ⟨⟨before ++ left, part, right ++ after, ?_, ?_, solid⟩, Span.within_iff.mpr ?_⟩
    · simp [whole]
    · rw [Text.byteLength_append]
    · simp only [place, Text.byteLength_append]
      omega

theorem Text.trim_covers {text before inner after : Text} {region span solid : Span}
    (whole : text = before ++ (inner ++ after))
    (place : region = ⟨before.byteLength, before.byteLength + inner.byteLength⟩)
    (found : text.trim region = some span) (holds : text.Holds solid)
    (inside : solid.within region = true) : solid.within span = true := by
  rw [Span.within_iff, place] at inside
  have apart : Apart text before.byteLength [⟨solid, []⟩]
      (before.byteLength + inner.byteLength) := .cons inside.1 holds (.nil inside.2)
  rcases Text.trim_cases whole place with ⟨none, -⟩ |
    ⟨left, part, right, rfl, leftBlank, rightBlank, -, some⟩
  · rw [none] at found
    cases found
  · cases some.symm.trans found
    have trimmed := apart.trimmed whole rfl
      (by simp [Text.byteLength_append, Nat.add_assoc]) leftBlank rightBlank
    obtain ⟨low, -, high⟩ := trimmed.bounds _ (List.mem_singleton_self _)
    exact Span.within_iff.mpr ⟨low, high⟩

namespace Source

def Closes (text : Text) : Prop := ∀ c, text.getLast? = some c → isBlank c = false

theorem Closes.suffix {front back : Text} (closes : Closes (front ++ back)) : Closes back := by
  intro c last
  exact closes c (by rw [List.getLast?_append, last]; rfl)

/-- White space stands on one side of the cut at most. -/
def CleanCut (head tail : Text) : Prop := Closes head ∨ Opens tail

theorem shift_cut (s : Source) (dedent offset : Nat) {head tail : Text}
    (clean : CleanCut head tail) : s.shift dedent 0 offset (head ++ tail) =
      s.shift dedent 0 offset head ++ s.shift dedent 0 (offset + head.byteLength) tail := by
  rcases clean with closes | opens
  · rcases List.eq_nil_or_concat head with rfl | ⟨k, c, rfl⟩
    · rfl
    rw [List.concat_eq_append] at closes ⊢
    have solid : isBlank c = false := closes c List.getLast?_concat
    have line : c ≠ '\n' := by
      rintro rfl
      cases solid
    have indent : isIndent c = false := by
      cases h : isIndent c with
      | false => rfl
      | true => exact absurd (isBlank_of_isIndent h) (Bool.eq_false_iff.mp solid)
    -- What may still be dropped is nothing once the line has come to a solid character.
    have goes_on (budget offset : Nat) (rest : Text) :
        s.shift dedent budget offset (c :: rest) =
          c :: s.shift dedent 0 (offset + c.utf8Size) rest := by
      simp [shift, line, indent]
    obtain ⟨left, whole⟩ := s.shift_append dedent 0 offset k (c :: tail)
    obtain ⟨left', first⟩ := s.shift_append dedent 0 offset k [c]
    have width : offset + Text.byteLength (k ++ [c]) =
        offset + Text.byteLength k + c.utf8Size := by
      rw [Text.byteLength_append, ← Nat.add_assoc]
      rfl
    rw [List.append_assoc, List.singleton_append, whole, first, goes_on, goes_on, width]
    simp [shift]
  · obtain ⟨left, parts⟩ := s.shift_append dedent 0 offset head tail
    rw [parts, s.shift_opens dedent left _ opens]

theorem splice_cut (s : Source) (dedent : Nat) {lo cut hi : Nat} {front back : List Edit}
    (frontAscends : Ascending s.text lo front cut) (backAscends : Ascending s.text cut back hi)
    {before head tail after : Text} (whole : s.text = before ++ (head ++ (tail ++ after)))
    (start : lo = before.byteLength) (cut_eq : cut = lo + head.byteLength)
    (stop : hi = cut + tail.byteLength) (clean : CleanCut head tail) :
    s.splice dedent hi lo (front ++ back) =
      s.splice dedent cut lo front ++ s.splice dedent hi cut back := by
  -- The gap of a cut is empty, and nothing is left of it.
  have moves : s.MovesAround dedent (· = []) head [] tail := by
    rintro offset head' tail' ⟨kept, rfl⟩ ⟨rest, rfl⟩
    exact ⟨[], rfl, s.shift_cut dedent offset (clean.imp Closes.suffix Opens.start)⟩
  obtain ⟨between, rfl, same⟩ := s.splice_around_gap dedent frontAscends backAscends whole start
    cut_eq rfl stop moves
  exact same

theorem closes_of_solid {part : Text} (solid : part.Solid) : Closes part := by
  obtain ⟨-, ⟨c, last, closes⟩⟩ := solid
  intro e same
  cases last.symm.trans same
  exact closes

theorem splice_around (s : Source) (dedent : Nat) {span part : Span} {first inner later : List Edit}
    (names : s.text.Names span) (holds : s.text.Holds part) (inside : part.within span = true)
    (firstAscends : Ascending s.text span.start first part.start)
    (innerAscends : Ascending s.text part.start inner part.stop)
    (laterAscends : Ascending s.text part.stop later span.stop) :
    s.splice dedent span.stop span.start (first ++ (inner ++ later)) =
      s.splice dedent part.start span.start first ++
        (s.splice dedent part.stop part.start inner ++
          s.splice dedent span.stop part.stop later) := by
  obtain ⟨start, stop⟩ := Span.within_iff.mp inside
  obtain ⟨before, whole, after, text, rfl⟩ := names
  obtain ⟨head, old, tail, rfl, solid, rfl⟩ := holds.parts text start stop
  have outer : s.text = before ++ (head ++ (old ++ tail ++ after)) := by simp [text]
  have rest : s.text = before ++ head ++ (old ++ (tail ++ after)) := by simp [text]
  rw [s.splice_cut dedent firstAscends (innerAscends.append laterAscends) outer rfl rfl
      (by simp [Text.byteLength_append, Nat.add_assoc]) (.inr (opens_of_solid solid tail)),
    s.splice_cut dedent innerAscends laterAscends rest (by rw [Text.byteLength_append]) rfl
      (by simp [Text.byteLength_append, Nat.add_assoc]) (.inl (closes_of_solid solid))]

theorem render_around (s : Source) (dedent : Nat) {span part : Span} {o o' : Nat}
    {first inner later : List Edit} (names : s.text.Names span) (holds : s.text.Holds part)
    (inside : part.within span = true) (firstApart : Apart s.text o first part.start)
    (innerApart : Apart s.text part.start inner part.stop)
    (laterApart : Apart s.text part.stop later o') :
    let edits := first ++ (inner ++ later)
    s.render span edits dedent = s.render ⟨span.start, part.start⟩ edits dedent ++
      (s.render part inner dedent ++ s.render ⟨part.stop, span.stop⟩ edits dedent) := by
  intro edits
  have ⟨start, stop⟩ := Span.within_iff.mp inside
  have le := innerApart.le
  have all : edits.filter (·.span.within span) =
      first.filter (·.span.within ⟨span.start, part.start⟩) ++
        (inner ++ later.filter (·.span.within ⟨part.stop, span.stop⟩)) := by
    rw [List.filter_append, List.filter_append, firstApart.filter_upto (by omega),
      innerApart.filter_within start stop, laterApart.filter_from (by omega)]
  have front : edits.filter (·.span.within ⟨span.start, part.start⟩) =
      first.filter (·.span.within ⟨span.start, part.start⟩) := by
    rw [List.filter_append, List.filter_append, innerApart.filter_after (Nat.le_refl _),
      laterApart.filter_after le, List.append_nil, List.append_nil]
  have back : edits.filter (·.span.within ⟨part.stop, span.stop⟩) =
      later.filter (·.span.within ⟨part.stop, span.stop⟩) := by
    rw [List.filter_append, List.filter_append, firstApart.filter_before le,
      innerApart.filter_before (Nat.le_refl _), List.nil_append, List.nil_append]
  have middle : inner.filter (·.span.within part) = inner :=
    innerApart.filter_within (Nat.le_refl _) (Nat.le_refl _)
  have firstIn := firstApart.within ⟨span.start, part.start⟩ start
  have laterIn := laterApart.within ⟨part.stop, span.stop⟩ stop
  simp only [render, all, front, back, middle]
  exact s.splice_around dedent names holds inside firstIn.ascending innerApart.ascending
    laterIn.ascending

end Source

variable {text : Text} {lo hi : Nat}

/-- Edits of which some stand for a part of the text, some before it and some after. -/
structure PartedAt (text : Text) (lo hi : Nat) (edits : List Edit) (part : Span)
    (inner : List Edit) : Prop where
  parted : ∃ first later, edits = first ++ (inner ++ later) ∧
    Apart text lo first part.start ∧ Apart text part.stop later hi
  inner : Apart text part.start inner part.stop

theorem PartedAt.trans {edits middle inner : List Edit} {part deep : Span}
    (outer : PartedAt text lo hi edits part middle)
    (rest : PartedAt text part.start part.stop middle deep inner) :
    PartedAt text lo hi edits deep inner := by
  obtain ⟨⟨first, later, rfl, firstApart, laterApart⟩, -⟩ := outer
  obtain ⟨⟨first', later', rfl, firstApart', laterApart'⟩, innerApart⟩ := rest
  refine ⟨⟨first ++ first', later' ++ later, by simp [List.append_assoc], ?_, ?_⟩, innerApart⟩
  · exact firstApart.append firstApart'
  · exact laterApart'.append laterApart

theorem PartedAt.render {s : Source} {span part : Span} {edits inner : List Edit} (dedent : Nat)
    (parted : PartedAt s.text lo hi edits part inner) (names : s.text.Names span)
    (holds : s.text.Holds part) (inside : part.within span = true) :
    s.render span edits dedent = s.render ⟨span.start, part.start⟩ edits dedent ++
      (s.render part inner dedent ++ s.render ⟨part.stop, span.stop⟩ edits dedent) := by
  obtain ⟨⟨first, later, rfl, firstApart, laterApart⟩, innerApart⟩ := parted
  exact s.render_around dedent names holds inside firstApart innerApart laterApart

namespace Job

variable {job : Job}

theorem edits_apart {p : Position} {ns : List Node} (nested : Nested text lo ns hi)
    (done : (job.searchAll p ns).failure = none) : Apart text lo (job.searchAll p ns).edits hi :=
  searchAll_apart nested done fun _ member =>
    search_apart (nested.mem member).1 (nested.mem member).2

theorem searchAll_parted {p : Position} {m : Node} {ns : List Node} (nested : Nested text lo ns hi)
    (done : (job.searchAll p ns).failure = none) (member : m ∈ ns) :
    PartedAt text lo hi (job.searchAll p ns).edits m.span (job.search p m).edits := by
  obtain ⟨stands, inside⟩ := nested.mem member
  have alone := searchAll_failure.mp done m member
  obtain ⟨front, back, rfl⟩ := List.append_of_mem member
  obtain ⟨mid, before, rest⟩ := nested.split
  obtain ⟨first, others, edits⟩ := searchAll_append done
  have later := searchAll_failure.mpr (List.forall_mem_cons.mp (searchAll_failure.mp others)).2
  have split : (job.searchAll p (m :: back)).edits =
      (job.search p m).edits ++ (job.searchAll p back).edits := by
    rw [searchAll_edits others, List.flatMap_cons, searchAll_edits later]
  cases rest with
  | node low _ _ after =>
      refine ⟨⟨_, _, by rw [edits, split], ?_, edits_apart after later⟩, ?_⟩
      · exact (edits_apart before first).reach low
      · exact search_apart stands inside alone

theorem Visits.parted {p q : Position} {n k : Node} (visits : job.Visits p n q k)
    (stands : n.Stands text) (nested : Nested text n.span.start n.children n.span.stop)
    (done : (job.search p n).failure = none) :
    PartedAt text n.span.start n.span.stop (job.search p n).edits k.span
      (job.search q k).edits := by
  induction visits with
  | @here p n =>
      refine ⟨⟨[], [], by simp, .nil (Nat.le_refl _), .nil (Nat.le_refl _)⟩, ?_⟩
      exact search_apart stands nested done
  | @down p q n m k still quiet member _ ih =>
      obtain ⟨stands', inside⟩ := nested.mem member
      obtain ⟨done', edits⟩ := search_still done still quiet
      have outer := searchAll_parted nested done' member
      rw [← edits] at outer
      exact outer.trans (ih stands' inside (searchAll_failure.mp done' m member))

end Job

end AmdUnwrap
