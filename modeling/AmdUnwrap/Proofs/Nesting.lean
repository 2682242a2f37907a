import AmdUnwrap.Proofs.Checked.Slice

/-!
Edits of a part of the text may be put together into one edit of the part, rendered first: nested
frames print what a single pass over all of their edits prints.
-/

namespace AmdUnwrap

structure EditsWithin (text : Text) (span : Span) (edits : List Edit) : Prop where
  named : ∀ edit ∈ edits, text.Names edit.span ∧ edit.span.start < edit.span.stop ∧
    edit.span.within span = true
  ordered : edits.Pairwise fun first later => first.span.stop ≤ later.span.start

/-- The edits with those of a part put together into one, which gives the part a new text. -/
def gathered (part : Span) (new : Text) (edits : List Edit) : List Edit :=
  edits.filter (·.span.stop ≤ part.start) ++
    (⟨part, new⟩ :: edits.filter (part.stop ≤ ·.span.start))

section

variable {text : Text} {lo hi : Nat} {span part : Span} {edits : List Edit}

theorem Ascending.bounds (ascending : Ascending text lo edits hi) :
    ∀ edit ∈ edits, lo ≤ edit.span.start ∧ edit.span.stop ≤ hi := by
  induction ascending with
  | nil _ => simp
  | cons start _ lt rest ih =>
      rw [List.forall_mem_cons]
      refine ⟨⟨start, rest.le⟩, fun edit member => ?_⟩
      obtain ⟨low, high⟩ := ih edit member
      exact ⟨by omega, high⟩

theorem EditsWithin.tail {edit : Edit} (within : EditsWithin text span (edit :: edits)) :
    EditsWithin text span edits :=
  ⟨(List.forall_mem_cons.mp within.named).2, (List.pairwise_cons.mp within.ordered).2⟩

theorem EditsWithin.ascending (within : EditsWithin text span edits) (p : Edit → Bool)
    (le : lo ≤ hi) (between : ∀ edit ∈ edits, p edit = true →
      lo ≤ edit.span.start ∧ edit.span.stop ≤ hi) :
    Ascending text lo (edits.filter p) hi := by
  induction edits generalizing lo with
  | nil => exact .nil le
  | cons edit edits ih =>
      obtain ⟨names, lt, -⟩ := within.named edit List.mem_cons_self
      obtain ⟨here, between⟩ := List.forall_mem_cons.mp between
      by_cases kept : p edit = true
      · obtain ⟨low, high⟩ := here kept
        rw [List.filter_cons_of_pos kept]
        refine .cons low names lt (ih within.tail high fun later member kept => ?_)
        have := (List.pairwise_cons.mp within.ordered).1 later member
        exact ⟨this, (between later member kept).2⟩
      · rw [List.filter_cons_of_neg kept]
        exact ih within.tail le between

theorem eq_parts (le : part.start ≤ part.stop) (within : EditsWithin text span edits)
    (parted : ∀ edit ∈ edits, edit.span.within part = true ∨ edit.span.stop ≤ part.start ∨
      part.stop ≤ edit.span.start) :
    edits = edits.filter (·.span.stop ≤ part.start) ++
      (edits.filter (·.span.within part) ++ edits.filter (part.stop ≤ ·.span.start)) := by
  induction edits with
  | nil => rfl
  | cons edit edits ih =>
      have lt := (within.named edit List.mem_cons_self).2.1
      obtain ⟨here, parted⟩ := List.forall_mem_cons.mp parted
      have parts := ih within.tail parted
      have past (later : Edit) (member : later ∈ edits) :
          edit.span.stop ≤ later.span.start ∧ later.span.start < later.span.stop :=
        ⟨(List.pairwise_cons.mp within.ordered).1 later member,
          (within.tail.named later member).2.1⟩
      -- Behind an edit that is in the part, or behind it, nothing stands before the part.
      have noneBefore (low : part.start ≤ edit.span.start) :
          edits.filter (·.span.stop ≤ part.start) = [] := by
        rw [List.filter_eq_nil_iff]
        intro later member
        have := past later member
        simp only [decide_eq_true_eq]
        omega
      rcases here with inside | before | behind
      · obtain ⟨low, high⟩ := Span.within_iff.mp inside
        have notBefore : ¬ edit.span.stop ≤ part.start := by omega
        have notBehind : ¬ part.stop ≤ edit.span.start := by omega
        simpa [inside, notBefore, notBehind, noneBefore low] using parts
      · have outside : edit.span.within part = false := by
          simp only [Span.within, Bool.and_eq_false_iff, decide_eq_false_iff_not]
          omega
        have notBehind : ¬ part.stop ≤ edit.span.start := by omega
        simpa [before, outside, notBehind] using parts
      · have noneInside : edits.filter (·.span.within part) = [] := by
          rw [List.filter_eq_nil_iff]
          intro later member
          have := past later member
          rw [Span.within_iff]
          omega
        have notBefore : ¬ edit.span.stop ≤ part.start := by omega
        have outside : edit.span.within part = false := by
          simp only [Span.within, Bool.and_eq_false_iff, decide_eq_false_iff_not]
          omega
        simpa [behind, notBefore, outside, noneBefore (by omega), noneInside] using parts

end

namespace Source

variable {s : Source} {span part : Span} {edits : List Edit}

theorem render_ascending (dedent : Nat)
    (ascending : Ascending s.text span.start edits span.stop) :
    s.render span edits dedent = s.splice dedent span.stop span.start edits := by
  have all : edits.filter (·.span.within span) = edits :=
    List.filter_eq_self.mpr fun edit member => Span.within_iff.mpr (ascending.bounds edit member)
  rw [render, all]

theorem splice_whole (s : Source) (dedent : Nat) (part : Span) (new : Text) :
    s.splice dedent part.stop part.start [⟨part, new⟩] = new := by
  have none (offset : Nat) : s.copy dedent ⟨offset, offset⟩ = [] := by
    rw [copy, slice, Text.slice_empty (Nat.le_refl _)]
    rfl
  simp only [splice, none, List.nil_append, List.append_nil]

theorem render_gathered (dedent : Nat) (names : s.text.Names span)
    (within : EditsWithin s.text span edits) (holds : s.text.Holds part)
    (inside : part.within span = true)
    (parted : ∀ edit ∈ edits, edit.span.within part = true ∨ edit.span.stop ≤ part.start ∨
      part.stop ≤ edit.span.start) :
    s.render span edits dedent =
      s.render span (gathered part (s.render part edits dedent) edits) dedent := by
  obtain ⟨low, high⟩ := Span.within_iff.mp inside
  have lt := holds.lt
  have bounds (edit : Edit) (member : edit ∈ edits) :=
    Span.within_iff.mp (within.named edit member).2.2
  have first := within.ascending (·.span.stop ≤ part.start) low
    fun edit member before => ⟨(bounds edit member).1, of_decide_eq_true before⟩
  have inner := within.ascending (·.span.within part) (Nat.le_of_lt lt)
    fun edit _ inside => Span.within_iff.mp inside
  have later := within.ascending (part.stop ≤ ·.span.start) high
    fun edit member behind => ⟨of_decide_eq_true behind, (bounds edit member).2⟩
  have parts := eq_parts (Nat.le_of_lt lt) within parted
  let new := s.render part edits dedent
  have alone : Ascending s.text part.start [⟨part, new⟩] part.stop :=
    .cons (Nat.le_refl _) holds.names lt (.nil (Nat.le_refl _))
  have ascending : Ascending s.text span.start edits span.stop := by
    rw [parts]
    exact first.append (inner.append later)
  have flat := s.splice_around dedent names holds inside first inner later
  have nested := s.splice_around dedent names holds inside first alone later
  rw [← parts] at flat
  rw [splice_whole] at nested
  rw [render_ascending dedent ascending, flat]
  exact nested.symm.trans (render_ascending dedent (first.append (alone.append later))).symm

end Source

/-- What is put into a text: an edit, or a part of the text with insets of its own. -/
inductive Inset where
  | edit (edit : Edit)
  | frame (part : Span) (insets : List Inset)

mutual
def Inset.edits : Inset → List Edit
  | .edit edit => [edit]
  | .frame _ insets => editsOf insets

def editsOf : List Inset → List Edit
  | [] => []
  | inset :: rest => inset.edits ++ editsOf rest
end

namespace Source

mutual
/-- The one edit that an inset becomes: a frame is rendered with what its own insets become. -/
def framed (s : Source) (dedent : Nat) : Inset → Edit
  | .edit edit => edit
  | .frame part insets => ⟨part, s.render part (s.framedAll dedent insets) dedent⟩

def framedAll (s : Source) (dedent : Nat) : List Inset → List Edit
  | [] => []
  | inset :: rest => s.framed dedent inset :: s.framedAll dedent rest
end

end Source

/-- Insets in order between two offsets. A frame starts and stops with something solid. -/
inductive Placed (text : Text) : Nat → List Inset → Nat → Prop where
  | nil {lo hi : Nat} : lo ≤ hi → Placed text lo [] hi
  | edit {lo hi : Nat} {edit : Edit} {rest : List Inset} : lo ≤ edit.span.start →
      text.Names edit.span → edit.span.start < edit.span.stop →
      Placed text edit.span.stop rest hi → Placed text lo (.edit edit :: rest) hi
  | frame {lo hi : Nat} {part : Span} {insets rest : List Inset} : lo ≤ part.start →
      text.Holds part → Placed text part.start insets part.stop →
      Placed text part.stop rest hi → Placed text lo (.frame part insets :: rest) hi

namespace Placed

variable {s : Source} {text : Text} {lo hi : Nat} {insets : List Inset}

theorem edits_ascending (placed : Placed text lo insets hi) :
    Ascending text lo (editsOf insets) hi := by
  induction placed with
  | nil le => exact .nil le
  | edit start names lt _ ih => exact .cons start names lt ih
  | frame start _ _ _ inner ih => exact .append (.append (.nil start) inner) ih

theorem framed_ascending (dedent : Nat) (placed : Placed s.text lo insets hi) :
    Ascending s.text lo (s.framedAll dedent insets) hi := by
  induction placed with
  | nil le => exact .nil le
  | edit start names lt _ ih => exact .cons start names lt ih
  | frame start holds _ _ _ ih => exact .cons start holds.names holds.lt ih

theorem splice_framed (dedent : Nat) (placed : Placed s.text lo insets hi)
    (low : s.text.Boundary lo) (high : s.text.Boundary hi) :
    s.splice dedent hi lo (s.framedAll dedent insets) = s.splice dedent hi lo (editsOf insets) := by
  induction placed with
  | nil _ => rfl
  | edit _ names _ _ ih =>
      have rest := ih names.boundaries.2 high
      simp only [Source.framedAll, Source.framed, editsOf, Inset.edits, List.singleton_append,
        Source.splice, rest]
  | @frame lo hi part insets rest start holds inner placed ihInner ih =>
      obtain ⟨left, right⟩ := holds.names.boundaries
      have stop := placed.edits_ascending.le
      have names : s.text.Names ⟨lo, hi⟩ :=
        Text.names_of_boundaries low high (by have := holds.lt; dsimp only; omega)
      have inside : part.within ⟨lo, hi⟩ = true := Span.within_iff.mpr ⟨start, stop⟩
      have before : Ascending s.text lo [] part.start := .nil start
      have alone (new : Text) : Ascending s.text part.start [⟨part, new⟩] part.stop :=
        .cons (Nat.le_refl _) holds.names holds.lt (.nil (Nat.le_refl _))
      have rendered : s.render part (s.framedAll dedent insets) dedent =
          s.splice dedent part.stop part.start (editsOf insets) :=
        (s.render_ascending dedent (inner.framed_ascending dedent)).trans (ihInner left right)
      have flat := s.splice_around dedent names holds inside before inner.edits_ascending
        placed.edits_ascending
      have nested := s.splice_around dedent names holds inside before
        (alone (s.render part (s.framedAll dedent insets) dedent))
        (placed.framed_ascending dedent)
      rw [Source.splice_whole, ih right high] at nested
      rw [← rendered] at flat
      simp only [List.nil_append, List.singleton_append] at flat nested
      simp only [Source.framedAll, Source.framed, editsOf, Inset.edits]
      exact nested.trans flat.symm

end Placed

/-- Rendering in nested frames is rendering in one pass: the edits in a part of the text may be put
together into one edit of that part, and so may those in parts of it, however deep. -/
theorem render_nested (s : Source) (dedent : Nat) {span : Span} (names : s.text.Names span) :
    (∀ part edits, EditsWithin s.text span edits → s.text.Holds part →
      part.within span = true →
      (∀ edit ∈ edits, edit.span.within part = true ∨ edit.span.stop ≤ part.start ∨
        part.stop ≤ edit.span.start) →
      s.render span edits dedent =
        s.render span (gathered part (s.render part edits dedent) edits) dedent) ∧
    ∀ insets, Placed s.text span.start insets span.stop →
      s.render span (editsOf insets) dedent =
        s.render span (s.framedAll dedent insets) dedent := by
  constructor
  · intro part edits within holds inside parted
    exact Source.render_gathered dedent names within holds inside parted
  · intro insets placed
    obtain ⟨low, high⟩ := names.boundaries
    rw [s.render_ascending dedent placed.edits_ascending,
      s.render_ascending dedent (placed.framed_ascending dedent)]
    exact (placed.splice_framed dedent low high).symm

theorem render_nested_call :
    let s : Source := ⟨"x(\x7b\n    f(`\n      `, 1,\n      2);\n  \x7d);".toList, [⟨10, 19⟩]⟩
    let edits : List Edit :=
      [⟨⟨0, 1⟩, ['y']⟩, ⟨⟨21, 22⟩, ['a', '\n']⟩, ⟨⟨30, 31⟩, ['b']⟩]
    let insets : List Inset := [.edit ⟨⟨0, 1⟩, ['y']⟩, .frame ⟨8, 33⟩
      [.frame ⟨21, 31⟩ [.edit ⟨⟨21, 22⟩, ['a', '\n']⟩, .edit ⟨⟨30, 31⟩, ['b']⟩]]]
    s.render ⟨0, 39⟩ edits 2 =
        s.render ⟨0, 39⟩ (gathered ⟨8, 33⟩ (s.render ⟨8, 33⟩ edits 2) edits) 2 ∧
      s.render ⟨0, 39⟩ (editsOf insets) 2 = s.render ⟨0, 39⟩ (s.framedAll 2 insets) 2 ∧
      s.render ⟨0, 39⟩ edits 2 = "y(\x7b\n  f(`\n      `, a\n,\n    b);\n\x7d);".toList := by
  intro s edits insets
  have all : s.text.Names ⟨0, 39⟩ := by decide
  have first : s.text.Names ⟨0, 1⟩ := by decide
  have one : s.text.Names ⟨21, 22⟩ := by decide
  have two : s.text.Names ⟨30, 31⟩ := by decide
  have statement : s.text.Holds ⟨8, 33⟩ :=
    Text.Names.holds (by decide) ⟨⟨'f', by decide, by decide⟩, ⟨';', by decide, by decide⟩⟩
  have arguments : s.text.Holds ⟨21, 31⟩ :=
    Text.Names.holds (by decide) ⟨⟨'1', by decide, by decide⟩, ⟨'2', by decide, by decide⟩⟩
  have within : EditsWithin s.text ⟨0, 39⟩ edits := ⟨by decide, by decide⟩
  have placed : Placed s.text 0 insets 39 := by
    refine .edit (by decide) first (by decide) (.frame (by decide) statement ?_ (.nil (by decide)))
    refine .frame (by decide) arguments ?_ (.nil (by decide))
    exact .edit (by decide) one (by decide) (.edit (by decide) two (by decide) (.nil (by decide)))
  obtain ⟨part, tree⟩ := render_nested s 2 all
  exact ⟨part ⟨8, 33⟩ edits within statement (by decide) (by decide), tree insets placed, by decide⟩

end AmdUnwrap
