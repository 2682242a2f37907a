import AmdUnwrap.Proofs.Checked.Line
import AmdUnwrap.Proofs.Line

namespace AmdUnwrap.Checked

def moveLine (s : Source) (dedent offset : Nat) (line : Text) : Option Text :=
  if dedent = 0 || s.inLiteral offset then some line else stripIndent line dedent

def moveLines (s : Source) (dedent : Nat) : (offset : Nat) → List Text → Option Text
  | _, [] => some []
  | offset, line :: rest => do
    let moved ← moveLine s dedent offset line
    let next ← add offset line.byteLength
    let later ← moveLines s dedent next rest
    return moved ++ later

def copy (s : Source) (dedent : Nat) (span : Span) : Option Text :=
  if span.stop ≤ span.start then some []
  else do
    let part ← slice s.text span
    match part.lines with
    | [] => return []
    | first :: rest =>
      let next ← add span.start first.byteLength
      let later ← moveLines s dedent next rest
      return first ++ later

/-- An edit that starts before the last one has stopped is an error. -/
def splice (s : Source) (dedent stop : Nat) : (start : Nat) → List Edit → Option Text
  | start, [] => copy s dedent ⟨start, stop⟩
  | start, edit :: edits =>
    if start ≤ edit.span.start then do
      let before ← copy s dedent ⟨start, edit.span.start⟩
      let later ← splice s dedent stop edit.span.stop edits
      return before ++ edit.text ++ later
    else none

/-- The output is given the size of the part to begin with. -/
def render (s : Source) (span : Span) (edits : List Edit) (dedent : Nat) : Option Text := do
  let _ ← sub span.stop span.start
  splice s dedent span.stop span.start (edits.filter (·.span.within span))

def deciding (s : Source) : (offset : Nat) → List Text → Option (List Nat)
  | _, [] => some []
  | offset, line :: rest => do
    let next ← add offset line.byteLength
    let later ← deciding s next rest
    if s.inLiteral offset || line.all isBlank then return later
    else
      let width ← sub line.byteLength (Text.byteLength (line.dropWhile isIndent))
      return width :: later

def blockIndent (s : Source) (region content : Span) : Option Nat := do
  let lead ← slice s.text ⟨region.start, content.start⟩
  if '\n' ∈ lead then
    let indent ← lineIndent s content.start
    return indent.byteLength
  else
    let block ← slice s.text content
    match block.lines with
    | [] => return 0
    | first :: rest =>
      let next ← add content.start first.byteLength
      let widths ← deciding s next rest
      return widths.min?.getD 0

variable {s : Source}

theorem moveLine_eq (dedent offset : Nat) (line : Text) :
    moveLine s dedent offset line = some (s.movedLine dedent offset line) := by
  rw [moveLine, Source.movedLine, stripIndent_eq]
  by_cases literal : s.inLiteral offset = true
  · simp [literal]
  · by_cases still : dedent = 0
    · simp [literal, still, Text.stripIndent_zero]
    · simp [literal, still]

theorem moveLines_eq {dedent offset : Nat} {lines : List Text}
    (short : offset + Text.byteLength lines.flatten < offsetLimit) :
    moveLines s dedent offset lines = some (s.movedLines dedent offset lines) := by
  induction lines generalizing offset with
  | nil => rfl
  | cons line rest ih =>
      rw [List.flatten_cons, Text.byteLength_append, ← Nat.add_assoc] at short
      have next : add offset line.byteLength = some (offset + line.byteLength) :=
        add_eq (by omega)
      simp only [moveLines, moveLine_eq, next, ih short, Option.bind_eq_bind, Option.bind_some]
      rfl

theorem lines_short {text : Text} {span : Span} {first : Text} {rest : List Text}
    (short : text.byteLength < offsetLimit) (names : text.Names span)
    (lines : (text.slice span).lines = first :: rest) :
    add span.start first.byteLength = some (span.start + first.byteLength) ∧
      span.start + first.byteLength + Text.byteLength rest.flatten < offsetLimit := by
  obtain ⟨before, part, after, rfl, rfl⟩ := names
  rw [Text.slice_middle] at lines
  have whole := Text.flatten_lines part
  rw [lines, List.flatten_cons] at whole
  rw [← whole] at short
  simp only [Text.byteLength_append] at short
  dsimp only
  exact ⟨add_eq (by omega), by omega⟩

theorem copy_eq {dedent : Nat} {span : Span} (names : s.text.Names span)
    (short : s.text.byteLength < offsetLimit) : copy s dedent span = some (s.copy dedent span) := by
  have moved : s.copy dedent span = s.movedFrom dedent 0 span.start (s.text.slice span).lines :=
    Source.shift_lines ..
  rw [copy, slice_eq names, moved]
  split
  next empty =>
    rw [Text.slice_empty empty]
    rfl
  next =>
    cases lines : (s.text.slice span).lines with
    | nil => simp [lines, Source.movedFrom]
    | cons first rest =>
        obtain ⟨next, later⟩ := lines_short short names lines
        simp only [lines, next, moveLines_eq later, Source.movedFrom, Text.stripIndent_zero,
          Option.bind_eq_bind, Option.bind_some, Option.pure_def]

theorem splice_eq {dedent start stop : Nat} {edits : List Edit}
    (apart : Apart s.text start edits stop) (low : s.text.Boundary start)
    (high : s.text.Boundary stop) (short : s.text.byteLength < offsetLimit) :
    splice s dedent stop start edits = some (s.splice dedent stop start edits) := by
  induction apart with
  | nil le => exact copy_eq (Text.names_of_boundaries low high le) short
  | @cons start stop edit edits le holds _ ih =>
      obtain ⟨left, right⟩ := holds.names.boundaries
      have before : copy s dedent ⟨start, edit.span.start⟩ = some _ :=
        copy_eq (Text.names_of_boundaries low left le) short
      simp only [splice, if_pos le, before, ih right high, Option.bind_eq_bind, Option.bind_some]
      rfl

theorem render_eq {dedent lo hi : Nat} {span : Span} {edits : List Edit}
    (names : s.text.Names span) (apart : Apart s.text lo edits hi)
    (short : s.text.byteLength < offsetLimit) :
    render s span edits dedent = some (s.render span edits dedent) := by
  obtain ⟨low, high⟩ := names.boundaries
  rw [render, sub_eq names.le]
  exact splice_eq (apart.within span names.le) low high short

theorem deciding_eq {offset : Nat} {lines : List Text}
    (short : offset + Text.byteLength lines.flatten < offsetLimit) :
    deciding s offset lines = some (s.deciding offset lines) := by
  induction lines generalizing offset with
  | nil => rfl
  | cons line rest ih =>
      rw [List.flatten_cons, Text.byteLength_append, ← Nat.add_assoc] at short
      have next : add offset line.byteLength = some (offset + line.byteLength) :=
        add_eq (by omega)
      simp only [deciding, next, ih short, sub_dropWhile, Text.byteLength_indent,
        Option.bind_eq_bind, Option.bind_some, Option.pure_def, Source.deciding]
      split <;> rfl

theorem blockIndent_eq {region content : Span} (regionNames : s.text.Names region)
    (names : s.text.Names content) (inside : content.within region = true)
    (short : s.text.byteLength < offsetLimit) :
    blockIndent s region content = some (s.blockIndent region content) := by
  obtain ⟨start, -⟩ := names.boundaries
  have lead : slice s.text ⟨region.start, content.start⟩ =
      some (s.slice ⟨region.start, content.start⟩) :=
    slice_eq (Text.names_of_boundaries regionNames.boundaries.1 start
      (Span.within_iff.mp inside).1)
  have block : slice s.text content = some (s.slice content) := slice_eq names
  simp only [blockIndent, lead, Source.blockIndent, Option.bind_eq_bind, Option.bind_some]
  by_cases alone : '\n' ∈ s.slice ⟨region.start, content.start⟩
  · have indent : Text.byteLength (s.lineIndent content.start) =
        (s.lineIndent content.start).length := Text.byteLength_indent _
    rw [if_pos alone, if_pos alone, lineIndent_eq short start, Option.bind_some, indent]
    rfl
  · rw [if_neg alone, if_neg alone, block, Option.bind_some]
    cases lines : (s.slice content).lines with
    | nil => rfl
    | cons first rest =>
        obtain ⟨next, later⟩ := lines_short short names lines
        simp only [next, deciding_eq later, Option.bind_some, Option.pure_def]

end AmdUnwrap.Checked
