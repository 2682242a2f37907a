import AmdUnwrap.Proofs.Checked.Slice
import AmdUnwrap.Splice

namespace AmdUnwrap.Checked

def stripIndent (line : Text) (width : Nat) : Option Text := do
  let available ← sub line.byteLength (Text.byteLength (line.dropWhile isIndent))
  slice line ⟨min available width, line.byteLength⟩

def lineStart (before : Text) : Option Nat :=
  match before.lastLineFeed? with
  | some place => add place 1
  | none => some 0

def lineIndent (s : Source) (offset : Nat) : Option Text := do
  let before ← slice s.text ⟨0, offset⟩
  let start ← lineStart before
  let line ← slice s.text ⟨start, offset⟩
  let width ← sub line.byteLength (Text.byteLength (line.dropWhile isIndent))
  slice line ⟨0, width⟩

def lineStop (s : Source) (offset : Nat) (after : Text) : Option (Option Nat) :=
  match after.lineFeed? with
  | some place => (add offset place).map some
  | none => (slice s.text ⟨0, offset⟩).map Text.lastLineFeed?

def lineEnding (s : Source) (offset : Nat) : Option LineEnding := do
  let after ← slice s.text ⟨offset, s.text.byteLength⟩
  match ← lineStop s offset after with
  | some place => (slice s.text ⟨0, place⟩).map Text.endingAfter
  | none => some .lf

def trim (s : Source) (region : Span) : Option (Option Span) := do
  let body ← slice s.text region
  let leading ← sub body.byteLength (Text.byteLength body.trimStart)
  match body.trimStart with
  | [] => return none
  | content =>
    let start ← add region.start leading
    let stop ← add start (Text.byteLength content.trimEnd)
    return some ⟨start, stop⟩

theorem stripIndent_eq (line : Text) (width : Nat) :
    stripIndent line width = some (line.stripIndent width) := by
  obtain ⟨dropped, parts, indent, measure⟩ := line.loses_stripIndent width
  rw [← Text.byteLength_of_indent indent] at measure
  simp only [stripIndent, sub_dropWhile, Option.bind_eq_bind, Option.bind_some,
    Text.byteLength_indent, ← measure]
  exact slice_back parts rfl

theorem lineStart_eq {before after text : Text} (short : text.byteLength < offsetLimit)
    (whole : text = before ++ after) :
    ∃ start, lineStart before = some start ∧
      slice text ⟨start, before.byteLength⟩ = some before.lastLine := by
  by_cases lines : '\n' ∈ before
  · have parts := Text.last_line lines
    have found : before.lastLineFeed? = some before.aboveLastLine.byteLength := if_pos lines
    have whole' : text = (before.aboveLastLine ++ ['\n']) ++ (before.lastLine ++ after) := by
      calc text
          = before.aboveLastLine ++ '\n' :: before.lastLine ++ after := by rw [whole, ← parts]
        _ = _ := by simp
    refine ⟨Text.byteLength (before.aboveLastLine ++ ['\n']), ?_, slice_parts whole' rfl ?_⟩
    · rw [lineStart, found]
      exact add_front short (whole'.trans (List.append_assoc ..))
    · rw [← Text.byteLength_append, List.append_assoc, List.singleton_append, ← parts]
  · have found : before.lastLineFeed? = none := if_neg lines
    refine ⟨0, by rw [lineStart, found], ?_⟩
    rw [Text.lastLine_of_not_mem lines]
    exact slice_front whole rfl

variable {s : Source} {offset : Nat}

theorem lineIndent_eq (short : s.text.byteLength < offsetLimit)
    (boundary : s.text.Boundary offset) : lineIndent s offset = some (s.lineIndent offset) := by
  obtain ⟨before, after, whole, rfl⟩ := boundary
  have front : slice s.text ⟨0, before.byteLength⟩ = some before := slice_front whole rfl
  have kept : s.lineIndent before.byteLength = before.lastLine.takeWhile isIndent := by
    rw [Source.lineIndent, Text.lineIndent, whole, Text.takeBytes_byteLength]
  obtain ⟨start, starts, line⟩ := lineStart_eq short whole
  have indent : slice before.lastLine
      ⟨0, Text.byteLength (before.lastLine.takeWhile isIndent)⟩ =
        some (before.lastLine.takeWhile isIndent) :=
    slice_front List.takeWhile_append_dropWhile.symm rfl
  simp only [lineIndent, front, starts, line, sub_dropWhile, indent, kept,
    Option.bind_eq_bind, Option.bind_some]

theorem lineEnding_eq (short : s.text.byteLength < offsetLimit)
    (boundary : s.text.Boundary offset) : lineEnding s offset = some (s.lineEnding offset) := by
  obtain ⟨before, after, whole, rfl⟩ := boundary
  have back : slice s.text ⟨before.byteLength, s.text.byteLength⟩ = some after :=
    slice_back whole rfl
  have front : slice s.text ⟨0, before.byteLength⟩ = some before := slice_front whole rfl
  have parts : s.text.takeBytes before.byteLength = before ∧
      s.text.dropBytes before.byteLength = after := by
    rw [whole]
    exact ⟨Text.takeBytes_byteLength .., Text.dropBytes_byteLength ..⟩
  simp only [lineEnding, back, Source.lineEnding, Text.lineEnding, parts.1, parts.2,
    Option.bind_eq_bind, Option.bind_some]
  by_cases lines : '\n' ∈ after
  · obtain ⟨rest, first⟩ := Text.first_line lines
    have found : after.lineFeed? = some (Text.byteLength (after.takeWhile (· ≠ '\n'))) :=
      if_pos lines
    rw [if_pos lines]
    generalize after.takeWhile (· ≠ '\n') = line at first found
    have whole' : s.text = before ++ (line ++ '\n' :: rest) := by rw [whole, first]
    have stop : lineStop s before.byteLength after =
        some (some (Text.byteLength (before ++ line))) := by
      rw [lineStop, found]
      exact congrArg (Option.map some) (add_front short whole')
    have upto : slice s.text ⟨0, Text.byteLength (before ++ line)⟩ = some (before ++ line) :=
      slice_front (whole'.trans (List.append_assoc ..).symm) rfl
    simp only [stop, Option.bind_some, upto, Option.map_some]
  · have found : after.lineFeed? = none := if_neg lines
    have stop : lineStop s before.byteLength after = some before.lastLineFeed? := by
      rw [lineStop, found]
      exact congrArg (Option.map Text.lastLineFeed?) front
    rw [if_neg lines, stop, Option.bind_some]
    by_cases earlier : '\n' ∈ before
    · have parts := Text.last_line earlier
      have found : before.lastLineFeed? = some before.aboveLastLine.byteLength := if_pos earlier
      have whole' : s.text = before.aboveLastLine ++ ('\n' :: before.lastLine ++ after) := by
        calc s.text
            = before.aboveLastLine ++ '\n' :: before.lastLine ++ after := by rw [whole, ← parts]
          _ = _ := List.append_assoc ..
      rw [found]
      exact congrArg (Option.map Text.endingAfter) (slice_front whole' rfl)
    · have found : before.lastLineFeed? = none := if_neg earlier
      have above : (before.reverse.dropWhile (· ≠ '\n')).tail.reverse = [] :=
        Text.aboveLastLine_of_not_mem earlier
      rw [found, above]
      rfl

theorem trim_eq {region : Span} (names : s.text.Names region)
    (short : s.text.byteLength < offsetLimit) : trim s region = some (s.trim region) := by
  obtain ⟨before, part, after, whole, place⟩ := names
  have body : s.text.slice region = part := by
    rw [whole, place]
    exact Text.slice_middle before part after
  have sliced : slice s.text region = some part := by
    rw [← body]
    exact slice_eq ⟨before, part, after, whole, place⟩
  have leading : sub part.byteLength (Text.byteLength part.trimStart) =
      some (Text.byteLength (part.takeWhile isBlank)) := sub_dropWhile isBlank part
  have parts : part.takeWhile isBlank ++ part.trimStart = part :=
    List.takeWhile_append_dropWhile
  simp only [trim, sliced, leading, Source.trim, Text.trim, body, Option.bind_eq_bind,
    Option.bind_some]
  generalize part.takeWhile isBlank = left at parts
  cases content : part.trimStart with
  | nil => rfl
  | cons c cs =>
      obtain ⟨-, right, ending, -⟩ := Text.trimEnd_solid cs (Text.not_blank_head content)
      rw [content, ending] at parts
      have first : s.text = before ++ (left ++ (Text.trimEnd (c :: cs) ++ right ++ after)) := by
        rw [whole, ← parts, List.append_assoc]
      have second : s.text = (before ++ left) ++ (Text.trimEnd (c :: cs) ++ (right ++ after)) := by
        rw [first, List.append_assoc, List.append_assoc]
      have start := add_front short first
      have stop := add_front short second
      simp only [place, start, stop, Option.bind_some, Option.pure_def]
      simp only [Text.byteLength_append]

end AmdUnwrap.Checked
