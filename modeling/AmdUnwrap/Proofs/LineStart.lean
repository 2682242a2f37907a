import AmdUnwrap.Proofs.Boundary
import AmdUnwrap.Proofs.Printing
import AmdUnwrap.Proofs.Seam
import AmdUnwrap.Proofs.Text.Line

namespace AmdUnwrap

namespace Text

theorem trimEnd_parts (text : Text) :
    ∃ gap, text = trimEnd text ++ gap ∧ gap.Blank ∧ Source.Closes (trimEnd text) := by
  refine ⟨(text.reverse.takeWhile isBlank).reverse, ?_, ?_, ?_⟩
  · rw [trimEnd, ← List.reverse_append, List.takeWhile_append_dropWhile, List.reverse_reverse]
  · intro c member
    exact blank_takeWhile _ c (List.mem_reverse.mp member)
  · intro c last
    rw [trimEnd, List.getLast?_reverse] at last
    have first := List.head?_dropWhile_not isBlank text.reverse
    rw [last] at first
    exact first

end Text

theorem Apart.filter_sides {text : Text} {lo cut mid hi : Nat} {first later : List Edit}
    (firstApart : Apart text lo first cut) (laterApart : Apart text mid later hi) (le : cut ≤ mid) :
    (first ++ later).filter (·.span.within ⟨lo, mid⟩) = first ∧
      (first ++ later).filter (·.span.within ⟨mid, hi⟩) = later := by
  constructor
  · rw [List.filter_append, firstApart.filter_within (Nat.le_refl _) le,
      laterApart.filter_after (Nat.le_refl _), List.append_nil]
  · rw [List.filter_append, firstApart.filter_before le,
      laterApart.filter_within (Nat.le_refl _) (Nat.le_refl _), List.nil_append]

namespace Source

variable {s : Source} {dedent : Nat}

theorem shift_indent {blanks : Text} (indent : ∀ c ∈ blanks, isIndent c = true) {budget : Nat}
    (le : budget ≤ blanks.length) (offset : Nat) (rest : Text) :
    s.shift dedent budget offset (blanks ++ rest) =
      blanks.drop budget ++ s.shift dedent 0 (offset + blanks.byteLength) rest := by
  induction blanks generalizing budget offset with
  | nil =>
      obtain rfl := Nat.le_zero.mp le
      rfl
  | cons c blanks ih =>
      obtain ⟨first, others⟩ := List.forall_mem_cons.mp indent
      have line : c ≠ '\n' := by
        rintro rfl
        cases first
      cases budget with
      | zero =>
          have same := ih others (Nat.zero_le _) (offset + c.utf8Size)
          rw [List.drop_zero] at same ⊢
          simp only [List.cons_append, shift, if_neg line, bne_self_eq_false, Bool.and_false,
            Bool.false_eq_true, if_false, same, Text.byteLength, Nat.add_assoc]
      | succ budget =>
          have same := ih others (Nat.le_of_succ_le_succ le) (offset + c.utf8Size)
          simp only [List.cons_append, shift, if_neg line, first, Bool.true_and,
            List.drop_succ_cons, Nat.add_sub_cancel, same, Text.byteLength, Nat.add_assoc]
          rw [if_pos (by simp)]

theorem shift_line_start {blanks : Text} (indent : ∀ c ∈ blanks, isIndent c = true)
    (le : dedent ≤ blanks.length) {budget offset : Nat} (gap rest : Text)
    (free : s.inLiteral (offset + gap.byteLength + 1) = false) :
    s.shift dedent budget offset (gap ++ '\n' :: (blanks ++ rest)) =
      s.shift dedent budget offset gap ++ '\n' :: (blanks.drop dedent ++
        s.shift dedent 0 (offset + gap.byteLength + 1 + blanks.byteLength) rest) := by
  obtain ⟨left, parts⟩ := s.shift_append dedent budget offset gap ('\n' :: (blanks ++ rest))
  have width : '\n'.utf8Size = 1 := rfl
  rw [parts, shift, if_pos rfl, width, free, if_neg Bool.false_ne_true, shift_indent indent le]

theorem holds_beside {front gap blanks below : Text} {span : Span} {start : Nat}
    (holds : s.text.Holds span) (whole : s.text = front ++ (gap ++ '\n' :: (blanks ++ below)))
    (starts : start = front.byteLength + gap.byteLength + 1) (blank : gap.Blank)
    (indent : ∀ c ∈ blanks, isIndent c = true) (clear : span.surrounds start = false) :
    span.stop ≤ front.byteLength ∨ start + blanks.byteLength ≤ span.start := by
  have margin : Text.Blank (gap ++ '\n' :: blanks) := by
    intro c member
    rcases List.mem_append.mp member with inGap | inLine
    · exact blank c inGap
    · rcases List.mem_cons.mp inLine with rfl | member
      · rfl
      · exact isBlank_of_isIndent (indent c member)
  have place : s.text = front ++ ((gap ++ '\n' :: blanks) ++ below) := by simp [whole]
  have outside := holds.outside place margin
  have one : '\n'.utf8Size = 1 := rfl
  simp only [Text.byteLength_append, Text.byteLength, one] at outside
  simp only [Span.surrounds, Bool.and_eq_false_iff, decide_eq_false_iff_not] at clear
  omega

theorem splice_line_start {front gap blanks rest after : Text} {edits : List Edit}
    {cut start hi : Nat} (whole : s.text = front ++ (gap ++ '\n' :: (blanks ++ (rest ++ after))))
    (cut_eq : cut = front.byteLength) (starts : start = cut + gap.byteLength + 1)
    (stop : hi = start + blanks.byteLength + rest.byteLength)
    (indent : ∀ c ∈ blanks, isIndent c = true) (le : dedent ≤ blanks.length)
    (free : s.inLiteral start = false)
    (apart : Apart s.text (start + blanks.byteLength) edits hi) :
    s.splice dedent hi cut edits = s.shift dedent 0 cut gap ++
      '\n' :: (blanks.drop dedent ++ s.splice dedent hi (start + blanks.byteLength) edits) := by
  have one : Text.byteLength ['\n'] = 1 := rfl
  have copied (part others : Text) (parts : rest ++ after = part ++ others) {mid : Nat}
      (mid_eq : mid = start + blanks.byteLength + part.byteLength) :
      s.copy dedent ⟨cut, mid⟩ = s.shift dedent 0 cut gap ++
        '\n' :: (blanks.drop dedent ++ s.copy dedent ⟨start + blanks.byteLength, mid⟩) := by
    have outer : s.text = front ++ ((gap ++ '\n' :: (blanks ++ part)) ++ others) := by
      simp [whole, parts]
    have inner : s.text = (front ++ gap ++ ['\n'] ++ blanks) ++ (part ++ others) := by
      simp [whole, parts]
    have slice : s.slice ⟨cut, mid⟩ = gap ++ '\n' :: (blanks ++ part) := by
      apply Text.slice_eq outer cut_eq
      simp only [Text.byteLength_append, Text.byteLength]
      have : '\n'.utf8Size = 1 := rfl
      omega
    have slice' : s.slice ⟨start + blanks.byteLength, mid⟩ = part := by
      apply Text.slice_eq inner
      · simp only [Text.byteLength_append, one]
        omega
      · simp only [Text.byteLength_append, one]
        omega
    rw [starts] at free
    rw [copy, copy, slice, slice', shift_line_start indent le gap part free, starts]
  cases apart with
  | nil _ => exact copied rest after rfl stop
  | @cons _ _ edit edits low holds later =>
      have last := later.le
      have place : s.text = (front ++ gap ++ ['\n'] ++ blanks) ++ (rest ++ after) := by
        simp [whole]
      have width : Text.byteLength (front ++ gap ++ ['\n'] ++ blanks) =
          start + blanks.byteLength := by
        simp only [Text.byteLength_append, one]
        omega
      obtain ⟨kept, old, others, rfl, -, span⟩ := holds.parts place (by omega) (by omega)
      rw [width] at span
      rw [splice, splice, copied kept (old ++ others ++ after) (by simp) (by rw [span])]
      simp only [List.append_assoc, List.cons_append]

theorem splice_line {before head gap blanks rest after : Text} {first later : List Edit}
    {lo cut start hi : Nat}
    (whole : s.text = before ++ (head ++ (gap ++ '\n' :: (blanks ++ (rest ++ after)))))
    (lo_eq : lo = before.byteLength) (cut_eq : cut = lo + head.byteLength)
    (starts : start = cut + gap.byteLength + 1)
    (stop : hi = start + blanks.byteLength + rest.byteLength) (closes : Closes head)
    (indent : ∀ c ∈ blanks, isIndent c = true) (le : dedent ≤ blanks.length)
    (free : s.inLiteral start = false) (firstApart : Apart s.text lo first cut)
    (laterApart : Apart s.text (start + blanks.byteLength) later hi) :
    s.splice dedent hi lo (first ++ later) =
      s.splice dedent (start + blanks.byteLength) lo first ++
        s.splice dedent hi (start + blanks.byteLength) later ∧
    ∃ front, s.splice dedent (start + blanks.byteLength) lo first =
      front ++ '\n' :: blanks.drop dedent := by
  have cut_eq' : cut = Text.byteLength (before ++ head) := by
    rw [Text.byteLength_append, cut_eq, lo_eq]
  have one : '\n'.utf8Size = 1 := rfl
  have parted (rest after : Text) {later : List Edit} {hi : Nat}
      (whole : s.text = before ++ (head ++ (gap ++ '\n' :: (blanks ++ (rest ++ after)))))
      (stop : hi = start + blanks.byteLength + rest.byteLength)
      (apart : Apart s.text (start + blanks.byteLength) later hi) :
      s.splice dedent hi lo (first ++ later) = s.splice dedent cut lo first ++
        (s.shift dedent 0 cut gap ++ '\n' :: (blanks.drop dedent ++
          s.splice dedent hi (start + blanks.byteLength) later)) := by
    have outer : s.text = before ++ (head ++ ((gap ++ '\n' :: (blanks ++ rest)) ++ after)) := by
      simp [whole]
    have inner : s.text = (before ++ head) ++ (gap ++ '\n' :: (blanks ++ (rest ++ after))) := by
      simp [whole]
    have back : Apart s.text cut later hi := (Apart.nil (by omega)).append apart
    rw [s.splice_cut dedent firstApart.ascending back.ascending outer lo_eq cut_eq
        (by simp only [Text.byteLength_append, Text.byteLength, one]; omega) (.inl closes),
      splice_line_start inner cut_eq' starts stop indent le free apart]
  have all := parted rest after whole stop laterApart
  have upto := parted [] (rest ++ after) whole rfl (.nil (Nat.le_refl _))
  have nothing : s.copy dedent ⟨start + blanks.byteLength, start + blanks.byteLength⟩ = [] := by
    rw [copy, slice, Text.slice_empty (Nat.le_refl _)]
    rfl
  rw [List.append_nil, splice, Text.byteLength, Nat.add_zero, nothing, List.append_nil] at upto
  rw [all, upto]
  exact ⟨by simp, s.splice dedent cut lo first ++ s.shift dedent 0 cut gap, by simp⟩

theorem names_line {span : Span} {start : Nat} {above blanks below : Text}
    (names : s.text.Names span) (whole : s.text = above ++ '\n' :: (blanks ++ below))
    (starts : start = above.byteLength + 1) (low : span.start < start)
    (high : start + blanks.byteLength ≤ span.stop) :
    ∃ before head gap rest after : Text,
      s.text = before ++ (head ++ (gap ++ '\n' :: (blanks ++ (rest ++ after)))) ∧
      span.start = before.byteLength ∧
      start = before.byteLength + head.byteLength + gap.byteLength + 1 ∧
      span.stop = start + blanks.byteLength + rest.byteLength ∧ gap.Blank ∧ Closes head := by
  obtain ⟨before, part, after, whole', rfl⟩ := names
  dsimp only at low high ⊢
  obtain ⟨upper, rfl, same⟩ := Text.part_rest (whole'.symm.trans whole) (by omega)
  rw [Text.byteLength_append] at starts
  have one : '\n'.utf8Size = 1 := rfl
  have line : upper ++ '\n' :: (blanks ++ below) = (upper ++ '\n' :: blanks) ++ below := by simp
  obtain ⟨rest, rfl, -⟩ := Text.part_rest (line.symm.trans same.symm)
    (by simp only [Text.byteLength_append, Text.byteLength, one]; omega)
  obtain ⟨gap, upper_eq, blank, closes⟩ := upper.trimEnd_parts
  generalize Text.trimEnd upper = head at upper_eq closes
  subst upper_eq
  rw [Text.byteLength_append] at starts
  refine ⟨before, head, gap, rest, after, ?_, rfl, ?_, ?_, blank, closes⟩
  · simp [whole']
  · omega
  · simp only [starts, Text.byteLength_append, Text.byteLength, one]
    omega

/-- A part is rendered in two, up to the indentation of a line that starts in no edit and from
there on. -/
theorem render_line {span : Span} {edits : List Edit} {lo hi start : Nat}
    {above blanks below : Text} (names : s.text.Names span) (apart : Apart s.text lo edits hi)
    (whole : s.text = above ++ '\n' :: (blanks ++ below)) (starts : start = above.byteLength + 1)
    (indent : ∀ c ∈ blanks, isIndent c = true) (free : s.inLiteral start = false)
    (le : dedent ≤ blanks.length) (low : span.start < start)
    (high : start + blanks.byteLength ≤ span.stop)
    (clear : ∀ edit ∈ edits, edit.span.within span = true → edit.span.surrounds start = false) :
    s.render span edits dedent =
      s.render ⟨span.start, start + blanks.byteLength⟩ edits dedent ++
        s.render ⟨start + blanks.byteLength, span.stop⟩ edits dedent ∧
    ∃ front, s.render ⟨span.start, start + blanks.byteLength⟩ edits dedent =
      front ++ '\n' :: blanks.drop dedent := by
  obtain ⟨before, head, gap, rest, after, place, first_eq, starts', stop, blank, closes⟩ :=
    names_line names whole starts low high
  have inside : span.within span = true := Span.within_iff.mpr ⟨Nat.le_refl _, Nat.le_refl _⟩
  have left : (⟨span.start, start + blanks.byteLength⟩ : Span).within span = true :=
    Span.within_iff.mpr ⟨Nat.le_refl _, high⟩
  have right : (⟨start + blanks.byteLength, span.stop⟩ : Span).within span = true :=
    Span.within_iff.mpr ⟨by dsimp only; omega, Nat.le_refl _⟩
  have inSpan := apart.within span (by omega)
  rw [← render_filter dedent left, ← render_filter dedent right, ← render_filter dedent inside]
  let margin : Span := ⟨before.byteLength + head.byteLength, start + blanks.byteLength⟩
  have beside : ∀ edit ∈ edits.filter (·.span.within span), edit.span.stop ≤ margin.start ∨
      margin.stop ≤ edit.span.start := by
    intro edit member
    obtain ⟨found, within⟩ := List.mem_filter.mp member
    have place' : s.text = (before ++ head) ++ (gap ++ '\n' :: (blanks ++ (rest ++ after))) := by
      simp [place]
    have sides := holds_beside (inSpan.holds member) place'
      (by rw [Text.byteLength_append, starts']) blank indent (clear edit found within)
    rwa [Text.byteLength_append] at sides
  obtain ⟨first, later, parts, firstApart, laterApart⟩ := inSpan.clear beside
  rw [parts] at inSpan ⊢
  dsimp only [margin] at firstApart laterApart
  rw [Nat.min_eq_left (by omega)] at firstApart
  rw [Nat.max_eq_left (by omega)] at laterApart
  obtain ⟨front, back⟩ := firstApart.filter_sides laterApart (by omega)
  simp only [render, inSpan.filter_within (Nat.le_refl _) (Nat.le_refl _), front, back]
  exact splice_line place first_eq (by rw [first_eq]) starts' stop closes indent le free firstApart
    laterApart

theorem copy_unindented {offset stop : Nat}
    (shown : Text.Unindented (s.text.dropBytes offset)) (lt : offset < stop) :
    Text.Unindented (s.copy dedent ⟨offset, stop⟩) := by
  obtain ⟨c, rest, below, visible⟩ := shown
  obtain ⟨n, succ⟩ := Nat.exists_eq_add_of_lt lt
  have left : stop - offset = n + 1 := by omega
  have slice : s.slice ⟨offset, stop⟩ = c :: Text.takeBytes (n + 1 - c.utf8Size) rest := by
    rw [Source.slice, Text.slice, left, below, Text.takeBytes]
  rw [copy, slice, shift]
  split
  · exact ⟨_, _, rfl, visible⟩
  · rw [visible, Bool.false_and, if_neg Bool.false_ne_true]
    exact ⟨_, _, rfl, visible⟩

theorem render_unindented {offset stop lo hi : Nat} {edits : List Edit}
    (shown : Text.Unindented (s.text.dropBytes offset)) (lt : offset < stop)
    (apart : Apart s.text lo edits hi)
    (opens : ∀ edit ∈ edits, edit.span.start = offset → edit.text.Unindented) :
    Text.Unindented (s.render ⟨offset, stop⟩ edits dedent) := by
  have within := apart.within ⟨offset, stop⟩ (Nat.le_of_lt lt)
  rw [render]
  have opens' : ∀ edit ∈ edits.filter (·.span.within ⟨offset, stop⟩),
      edit.span.start = offset → edit.text.Unindented :=
    fun edit member => opens edit (List.mem_filter.mp member).1
  generalize edits.filter (·.span.within ⟨offset, stop⟩) = edits' at within opens'
  cases within with
  | nil _ => exact copy_unindented shown lt
  | @cons _ _ edit edits low holds later =>
      rw [splice, List.append_assoc]
      dsimp only at low
      rcases Nat.eq_or_lt_of_le low with same | past
      · have nothing : s.copy dedent ⟨offset, edit.span.start⟩ = [] := by
          rw [copy, slice, Text.slice_empty (Nat.le_of_eq same.symm)]
          rfl
        rw [nothing, List.nil_append]
        exact (opens' edit List.mem_cons_self same.symm).append _
      · exact (copy_unindented shown past).append _

theorem unindented_of_holds {span : Span} (holds : s.text.Holds span) :
    Text.Unindented (s.text.dropBytes span.start) := by
  obtain ⟨before, part, after, whole, rfl, ⟨c, head, solid⟩, -⟩ := holds
  obtain ⟨rest, rfl⟩ := List.head?_eq_some_iff.mp head
  refine ⟨c, rest ++ after, ?_, ?_⟩
  · rw [whole, Text.dropBytes_byteLength]
    rfl
  · cases indent : isIndent c with
    | false => rfl
    | true => exact absurd (isBlank_of_isIndent indent) (Bool.eq_false_iff.mp solid)

/-- A line starts there, where no literal is open, and so wide is its indentation. -/
structure LineAt (s : Source) (start depth : Nat) : Prop where
  starts : ∃ above line : Text, s.text = above ++ '\n' :: line ∧
    start = above.byteLength + 1 ∧ line.indentWidth = depth
  free : s.inLiteral start = false

namespace LineAt

variable {start depth : Nat}

theorem parts (line : s.LineAt start depth) : ∃ above blanks below : Text,
    s.text = above ++ '\n' :: (blanks ++ below) ∧ start = above.byteLength + 1 ∧
      (∀ c ∈ blanks, isIndent c = true) ∧ blanks.length = depth ∧ blanks.byteLength = depth ∧
      ∀ c, below.head? = some c → isIndent c = false := by
  obtain ⟨above, rest, whole, starts, rfl⟩ := line.starts
  refine ⟨above, rest.takeWhile isIndent, rest.dropWhile isIndent, ?_, starts, ?_, rfl,
    rest.byteLength_indent, ?_⟩
  · rw [List.takeWhile_append_dropWhile, whole]
  · intro c member
    exact List.all_eq_true.mp List.all_takeWhile c member
  · intro c head
    have first := List.head?_dropWhile_not isIndent rest
    rw [head] at first
    exact first

theorem upto (line : s.LineAt start depth) : ∃ before below : Text, s.text = before ++ below ∧
    before.byteLength = start + depth ∧ ∀ c, below.head? = some c → isIndent c = false := by
  obtain ⟨above, blanks, below, whole, starts, -, -, width, opens⟩ := line.parts
  have one : '\n'.utf8Size = 1 := rfl
  refine ⟨above ++ '\n' :: blanks, below, by simp [whole], ?_, opens⟩
  rw [Text.byteLength_append, Text.byteLength, one, width, starts]
  omega

theorem unindented (line : s.LineAt start depth) (lt : start + depth < s.text.byteLength) :
    Text.Unindented (s.text.dropBytes (start + depth)) := by
  obtain ⟨before, below, whole, length, opens⟩ := line.upto
  rw [whole, Text.byteLength_append, length] at lt
  rw [whole, ← length, Text.dropBytes_byteLength]
  cases below with
  | nil => exact absurd lt (Nat.lt_irrefl _)
  | cons c rest => exact ⟨c, rest, rfl, opens c rfl⟩

variable {span : Span} {edits : List Edit} {lo hi : Nat}

theorem render (line : s.LineAt start depth) (names : s.text.Names span)
    (apart : Apart s.text lo edits hi) (le : dedent ≤ depth) (low : span.start < start)
    (high : start + depth ≤ span.stop)
    (clear : ∀ edit ∈ edits, edit.span.within span = true → edit.span.surrounds start = false) :
    s.render span edits dedent = s.render ⟨span.start, start + depth⟩ edits dedent ++
        s.render ⟨start + depth, span.stop⟩ edits dedent ∧
      ∃ front margin, s.render ⟨span.start, start + depth⟩ edits dedent = front ++ '\n' :: margin ∧
        (∀ c ∈ margin, isIndent c = true) ∧ margin.length = depth - dedent := by
  obtain ⟨above, blanks, below, whole, starts, indent, length, rfl, -⟩ := line.parts
  obtain ⟨parted, front, ending⟩ := render_line names apart whole starts indent line.free
    (le.trans_eq length.symm) low high clear
  refine ⟨parted, front, blanks.drop dedent, ending, ?_, ?_⟩
  · exact fun c member => indent c (List.mem_of_mem_drop member)
  · rw [List.length_drop, length]

end LineAt

def Visible (s : Source) (offset : Nat) : Prop :=
  ∃ c, (s.text.dropBytes offset).head? = some c ∧ isBlank c = false

theorem LineAt.starts_before {start depth : Nat} (line : s.LineAt start depth) {span : Span}
    (holds : s.text.Holds span) (le : span.start ≤ start + depth) :
    span.start < start ∨ span.start = start + depth := by
  obtain ⟨above, blanks, below, whole, rfl, indent, -, width, -⟩ := line.parts
  have place : s.text = (above ++ ['\n']) ++ (blanks ++ below) := by simp [whole]
  have outside := holds.outside place fun c member => isBlank_of_isIndent (indent c member)
  have first : Text.byteLength (above ++ ['\n']) = above.byteLength + 1 :=
    Text.byteLength_append ..
  omega

theorem LineAt.shows {start depth : Nat} (line : s.LineAt start depth)
    (visible : s.Visible (start + depth)) :
    ∃ stop, s.text.Holds ⟨start + depth, stop⟩ ∧
      ∀ offset, s.text.Boundary offset → offset ≤ start + depth ∨ stop ≤ offset := by
  obtain ⟨upto, below, whole, length, -⟩ := line.upto
  obtain ⟨c, head, solid⟩ := visible
  rw [whole, ← length, Text.dropBytes_byteLength] at head
  obtain ⟨rest, rfl⟩ := List.head?_eq_some_iff.mp head
  refine ⟨start + depth + c.utf8Size, ⟨upto, [c], rest, whole, ?_, ?_⟩, ?_⟩
  · rw [length]
    rfl
  · exact .of_all (by simp) (by simpa using solid)
  · rintro offset ⟨before, after, whole', rfl⟩
    by_contra inside
    rw [not_or, Nat.not_le, Nat.not_le] at inside
    obtain ⟨between, rfl, same⟩ := Text.part_rest (whole.symm.trans whole') (by omega)
    rw [Text.byteLength_append, length] at inside
    cases between with
    | nil => exact absurd inside.1 (Nat.lt_irrefl _)
    | cons e between =>
        cases same
        rw [Text.byteLength] at inside
        omega

theorem render_gap {edits : List Edit} {lo hi start stop : Nat} {before gap after : Text}
    (apart : Apart s.text lo edits hi) (whole : s.text = before ++ (gap ++ after))
    (start_eq : start = before.byteLength) (stop_eq : stop = start + gap.byteLength)
    (blank : gap.Blank) (plain : '\n' ∉ gap) : s.render ⟨start, stop⟩ edits dedent = gap := by
  have within := apart.within ⟨start, stop⟩ (by dsimp only; omega)
  have none := within.eq_nil_of_blank whole start_eq stop_eq blank
  rw [Source.render, none, splice, copy, slice,
    Text.slice_eq whole start_eq (by rw [stop_eq, start_eq]), shift_line _ _ _ plain]

/-- Only white space stands before the offset on its line, which starts outside of all literals and
whose indentation is so wide. -/
def StandsAlone (s : Source) (offset depth : Nat) : Prop :=
  ∃ start ≤ offset, s.LineAt start depth ∧ Text.Blank (s.slice ⟨start, offset⟩) ∧
    '\n' ∉ s.slice ⟨start, offset⟩

namespace StandsAlone

variable {part : Span} {depth : Nat}

theorem parts (alone : s.StandsAlone part.start depth) (holds : s.text.Holds part) :
    ∃ above blanks gap rest : Text, s.text = above ++ '\n' :: (blanks ++ (gap ++ rest)) ∧
      s.LineAt (above.byteLength + 1) depth ∧
      part.start = above.byteLength + 1 + depth + gap.byteLength ∧
      (∀ c ∈ blanks, isIndent c = true) ∧ blanks.length = depth ∧ gap.Blank ∧ '\n' ∉ gap ∧
      ∀ c, gap.head? = some c → isIndent c = false := by
  obtain ⟨start, le, line, blank, plain⟩ := alone
  obtain ⟨above, blanks, below, whole, rfl, indent, length, width, opens⟩ := line.parts
  have first : Text.byteLength (above ++ ['\n']) = above.byteLength + 1 :=
    Text.byteLength_append ..
  have past : above.byteLength + 1 + depth ≤ part.start := by
    have place : s.text = (above ++ ['\n']) ++ (blanks ++ below) := by simp [whole]
    have outside := holds.outside place fun c member => isBlank_of_isIndent (indent c member)
    rw [first, width] at outside
    omega
  obtain ⟨front, old, after, whole', rfl, solid⟩ := holds
  dsimp only at past blank plain ⊢
  have one : '\n'.utf8Size = 1 := rfl
  have place' : (above ++ '\n' :: blanks) ++ below = front ++ (old ++ after) := by
    simp [← whole', whole]
  obtain ⟨gap, rfl, rfl⟩ := Text.part_rest place' (by
    rw [Text.byteLength_append, Text.byteLength, one, width]
    omega)
  have offset : Text.byteLength (above ++ '\n' :: blanks ++ gap) =
      above.byteLength + 1 + depth + gap.byteLength := by
    simp only [Text.byteLength_append, Text.byteLength, one, width]
    omega
  have slice : s.slice ⟨above.byteLength + 1, Text.byteLength (above ++ '\n' :: blanks ++ gap)⟩ =
      blanks ++ gap := by
    have inner : s.text = (above ++ ['\n']) ++ ((blanks ++ gap) ++ (old ++ after)) := by
      simp [whole]
    exact Text.slice_eq inner first.symm (by
      rw [offset, first, Text.byteLength_append, width, Nat.add_assoc])
  rw [slice] at blank plain
  refine ⟨above, blanks, gap, old ++ after, whole, line, offset, indent, length, ?_, ?_, ?_⟩
  · exact fun c member => blank c (List.mem_append_right _ member)
  · exact fun member => plain (List.mem_append_right _ member)
  · intro c head
    exact opens c (by rw [List.head?_append, head]; rfl)

theorem lineIndent (alone : s.StandsAlone part.start depth) (holds : s.text.Holds part) :
    (s.lineIndent part.start).length = depth := by
  obtain ⟨above, blanks, gap, rest, whole, -, start, indent, rfl, -, plain, visible⟩ :=
    alone.parts holds
  have one : '\n'.utf8Size = 1 := rfl
  have before : s.text = (above ++ '\n' :: (blanks ++ gap)) ++ rest := by simp [whole]
  have length : part.start = Text.byteLength (above ++ '\n' :: (blanks ++ gap)) := by
    simp only [start, Text.byteLength_append, Text.byteLength, one,
      Text.byteLength_of_indent indent]
    omega
  have line : '\n' ∉ blanks ++ gap := by
    rw [List.mem_append, not_or]
    exact ⟨Text.not_mem_of_indent indent, plain⟩
  rw [Source.lineIndent, Text.lineIndent, before, length, Text.takeBytes_byteLength,
    Text.lastLine_line_feed _ line]
  exact Text.indentWidth_margin indent visible

theorem render {outer : Span} {edits : List Edit} {lo hi : Nat}
    (alone : s.StandsAlone part.start depth) (holds : s.text.Holds part)
    (around : s.text.Holds outer) (apart : Apart s.text lo edits hi) (le : dedent ≤ depth)
    (lt : outer.start < part.start) :
    ∃ front line : Text, s.render ⟨outer.start, part.start⟩ edits dedent = front ++ '\n' :: line ∧
      '\n' ∉ line ∧ line.indentWidth = depth - dedent := by
  obtain ⟨above, blanks, gap, rest, whole, line, start, indent, length, blank, plain, visible⟩ :=
    alone.parts holds
  have width : blanks.byteLength = depth := by rw [Text.byteLength_of_indent indent, length]
  have margin : Text.Blank (blanks ++ gap) := by
    intro c member
    rcases List.mem_append.mp member with member | member
    · exact isBlank_of_isIndent (indent c member)
    · exact blank c member
  have place : s.text = (above ++ ['\n']) ++ ((blanks ++ gap) ++ rest) := by simp [whole]
  have first : Text.byteLength (above ++ ['\n']) = above.byteLength + 1 :=
    Text.byteLength_append ..
  have total : Text.byteLength (blanks ++ gap) = depth + gap.byteLength := by
    rw [Text.byteLength_append, width]
  have low : outer.start < above.byteLength + 1 := by
    have outside := (around.outside place margin).1
    rw [first, total] at outside
    omega
  have names : s.text.Names ⟨outer.start, part.start⟩ :=
    Text.names_of_boundaries around.names.boundaries.1 holds.names.boundaries.1 (Nat.le_of_lt lt)
  have clear : ∀ edit ∈ edits, edit.span.within ⟨outer.start, part.start⟩ = true →
      edit.span.surrounds (above.byteLength + 1) = false := by
    intro edit member inside
    have ends : edit.span.stop ≤ part.start := (Span.within_iff.mp inside).2
    have outside := ((apart.holds member).outside place margin).2
    rw [first, total] at outside
    simp only [Span.surrounds, Bool.and_eq_false_iff, decide_eq_false_iff_not]
    omega
  obtain ⟨parted, front, rest', ends, isIndent, length'⟩ :=
    line.render names apart le low (by dsimp only; omega) clear
  have inGap : s.text = (above ++ '\n' :: blanks) ++ (gap ++ rest) := by simp [whole]
  have upto : Text.byteLength (above ++ '\n' :: blanks) = above.byteLength + 1 + depth := by
    rw [Text.byteLength_append, Text.byteLength, width]
    exact (Nat.add_assoc ..).symm
  have stays : s.render ⟨above.byteLength + 1 + depth, part.start⟩ edits dedent = gap :=
    render_gap apart inGap upto.symm start blank plain
  refine ⟨front, rest' ++ gap, ?_, ?_, ?_⟩
  · rw [parted, ends, stays]
    simp
  · rw [List.mem_append, not_or]
    exact ⟨Text.not_mem_of_indent isIndent, plain⟩
  · rw [Text.indentWidth_margin isIndent visible, length']

end StandsAlone

theorem lineIndent_indent (s : Source) (offset : Nat) :
    ∀ c ∈ s.lineIndent offset, isIndent c = true :=
  fun c member => List.all_eq_true.mp List.all_takeWhile c member

theorem movedIndent_indent (s : Source) (offset dedent : Nat) :
    ∀ c ∈ s.movedIndent offset dedent, isIndent c = true :=
  fun c member => s.lineIndent_indent offset c (List.mem_of_mem_drop member)

theorem length_movedIndent (s : Source) (offset dedent : Nat) :
    (s.movedIndent offset dedent).length = (s.lineIndent offset).length - dedent := by
  have indent := Text.indentWidth_of_indent (s.lineIndent_indent offset)
  rw [movedIndent, Text.stripIndent, indent, List.length_drop]
  omega

theorem lastLine_separator (s : Source) (front : Text) (statement : Span) (dedent : Nat) :
    Text.lastLine (front ++ s.separator statement dedent) =
      s.movedIndent statement.start dedent := by
  have line := Text.not_mem_of_indent (s.movedIndent_indent statement.start dedent)
  rw [separator]
  cases s.lineEnding statement.start with
  | lf => exact Text.lastLine_line_feed front line
  | crlf =>
      have parts : front ++ (LineEnding.crlf.text ++ s.movedIndent statement.start dedent) =
          (front ++ ['\r']) ++ '\n' :: s.movedIndent statement.start dedent := by
        simp [LineEnding.text]
      rw [parts]
      exact Text.lastLine_line_feed _ line

theorem render_empty {offset lo hi : Nat} {edits : List Edit} (apart : Apart s.text lo edits hi) :
    s.render ⟨offset, offset⟩ edits dedent = [] := by
  have within := apart.within ⟨offset, offset⟩ (Nat.le_refl _)
  rw [Source.render, within.eq_nil_of_le (Nat.le_refl _), splice, copy, slice,
    Text.slice_empty (Nat.le_refl _)]
  rfl

theorem lastLine_splice {lo hi : Nat} {edits : List Edit} (apart : Apart s.text lo edits hi)
    {before part after : Text} (whole : s.text = before ++ (part ++ after))
    (start : lo = before.byteLength) (stop : hi = before.byteLength + part.byteLength)
    (lines : ∀ edit ∈ edits, '\n' ∈ s.slice ⟨edit.span.stop, hi⟩) :
    Text.lastLine (s.splice 0 hi lo edits) = part.lastLine ∧
      ('\n' ∈ part → '\n' ∈ s.splice 0 hi lo edits) := by
  induction apart generalizing before part with
  | nil _ =>
      rw [splice, copy_zero, slice, Text.slice_eq whole start stop]
      exact ⟨rfl, id⟩
  | @cons lo hi edit edits low holds apart ih =>
      have le := apart.le
      obtain ⟨kept, old, rest, rfl, -, span⟩ := holds.parts whole (by omega) (by omega)
      rw [List.forall_mem_cons] at lines
      have others : s.text = before ++ kept ++ old ++ (rest ++ after) := by simp [whole]
      have start' : edit.span.stop = Text.byteLength (before ++ kept ++ old) := by
        simp [span, Text.byteLength_append, Nat.add_assoc]
      have stop' : hi = Text.byteLength (before ++ kept ++ old) + rest.byteLength := by
        simp only [Text.byteLength_append] at stop ⊢
        omega
      have line := lines.1
      rw [slice, Text.slice_eq others start' stop'] at line
      obtain ⟨same, lines'⟩ := ih others start' stop' lines.2
      rw [splice]
      constructor
      · rw [Text.lastLine_append_of_mem _ (lines' line), same, ← List.append_assoc,
          Text.lastLine_append_of_mem _ line]
      · exact fun _ => List.mem_append_right _ (lines' line)

theorem indentWidth_render {offset lo hi : Nat} {edits : List Edit}
    (boundary : s.text.Boundary offset) (apart : Apart s.text lo edits hi)
    (lines : ∀ edit ∈ edits, edit.span.stop ≤ offset →
      '\n' ∈ s.slice ⟨edit.span.stop, offset⟩) :
    Text.indentWidth (Text.lastLine (s.render ⟨0, offset⟩ edits 0)) =
      (s.lineIndent offset).length := by
  obtain ⟨before, after, whole, rfl⟩ := boundary
  have within := apart.within ⟨0, before.byteLength⟩ (Nat.zero_le _)
  have whole' : s.text = [] ++ (before ++ after) := whole
  obtain ⟨same, -⟩ := lastLine_splice within whole' rfl (Nat.zero_add _).symm
    fun edit member => lines edit (List.mem_filter.mp member).1
      (Span.within_iff.mp (List.mem_filter.mp member).2).2
  rw [Source.render, same, Source.lineIndent, Text.lineIndent, whole, Text.takeBytes_byteLength]
  rfl

end Source
end AmdUnwrap
