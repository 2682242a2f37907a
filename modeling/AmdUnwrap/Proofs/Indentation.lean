import Mathlib.Data.List.Forall2
import AmdUnwrap.Proofs.Checked.Slice
import AmdUnwrap.Proofs.Line

/-!
A block that is lifted keeps how its lines are indented against each other: those that decide how
deep the block is indented, and all that are as deep, move by one width, and no line loses anything
but spaces and tabs.
-/

namespace AmdUnwrap

structure Line where
  offset : Nat
  text : Text
  deriving DecidableEq, Repr

namespace Text

def linesFrom : (offset : Nat) → List Text → List Line
  | _, [] => []
  | offset, line :: rest => ⟨offset, line⟩ :: linesFrom (offset + line.byteLength) rest

/-- Lines as a text has them: each ends with its line feed, which only the last may lack. -/
inductive AreLines : List Text → Prop where
  | nil : AreLines []
  | last {line : Text} : line ≠ [] → '\n' ∉ line → AreLines [line]
  | cons {line : Text} {rest : List Text} : '\n' ∉ line → AreLines rest →
      AreLines ((line ++ ['\n']) :: rest)

theorem areLines (text : Text) : AreLines text.lines := by
  induction text with
  | nil => exact .nil
  | cons c cs ih =>
      rw [lines]
      by_cases line : c = '\n'
      · rw [if_pos line, line]
        exact .cons List.not_mem_nil ih
      · have other {front : Text} (plain : '\n' ∉ front) : '\n' ∉ c :: front := by
          simp [Ne.symm line, plain]
        rw [if_neg line]
        generalize lines cs = rest at ih
        cases ih with
        | nil => exact .last (by simp) (other List.not_mem_nil)
        | last _ plain => exact .last (by simp) (other plain)
        | cons plain rest => exact .cons (other plain) rest

theorem lines_terminated {line : Text} (plain : '\n' ∉ line) (rest : Text) :
    lines (line ++ '\n' :: rest) = (line ++ ['\n']) :: lines rest := by
  induction line with
  | nil => rfl
  | cons c cs ih =>
      rw [List.mem_cons, not_or] at plain
      obtain ⟨other, plain⟩ := plain
      rw [List.cons_append, lines, if_neg (Ne.symm other), ih plain]
      rfl

theorem lines_last {line : Text} (some : line ≠ []) (plain : '\n' ∉ line) :
    lines line = [line] := by
  induction line with
  | nil => exact absurd rfl some
  | cons c cs ih =>
      rw [List.mem_cons, not_or] at plain
      obtain ⟨other, plain⟩ := plain
      rw [lines, if_neg (Ne.symm other)]
      cases cs with
      | nil => rfl
      | cons e cs => rw [ih (by simp) plain]

theorem AreLines.lines_flatten {ls : List Text} (are : AreLines ls) : lines ls.flatten = ls := by
  induction are with
  | nil => rfl
  | last some plain => rw [List.flatten_singleton, lines_last some plain]
  | @cons line rest plain _ ih =>
      rw [List.flatten_cons, List.append_assoc, List.singleton_append, lines_terminated plain, ih]

theorem Loses.terminated {line rest : Text} {width : Nat} (plain : '\n' ∉ line)
    (loses : (line ++ ['\n']).Loses rest width) : ∃ left, rest = left ++ ['\n'] ∧ '\n' ∉ left := by
  obtain ⟨dropped, same, indent, -⟩ := loses
  rcases List.append_eq_append_iff.mp same with ⟨k, rfl, last⟩ | ⟨k, rfl, rfl⟩
  · cases k with
    | nil => exact ⟨[], last.symm, List.not_mem_nil⟩
    | cons c k =>
        obtain ⟨rfl, -⟩ := List.cons.inj last
        exact absurd (indent '\n' (by simp)) (by decide)
  · exact ⟨k, rfl, fun member => plain (List.mem_append_right _ member)⟩

end Text

namespace Source

variable {s : Source} {dedent offset : Nat}

/-- How a line comes out of a move: it loses what it can of the width, and nothing while a literal
is open where it starts. -/
def Moves (s : Source) (dedent : Nat) (line : Line) (moved : Text) : Prop :=
  line.text.Loses moved
    (if s.inLiteral line.offset then 0 else min dedent line.text.indentWidth)

theorem moves_movedLine (s : Source) (dedent : Nat) (line : Line) :
    s.Moves dedent line (s.movedLine dedent line.offset line.text) := by
  rw [Moves, movedLine]
  split
  · exact ⟨[], rfl, by simp, rfl⟩
  · rw [Nat.min_comm]
    exact line.text.loses_stripIndent dedent

theorem movedLines_eq_flatten (lines : List Text) : s.movedLines dedent offset lines =
    ((Text.linesFrom offset lines).map fun line =>
      s.movedLine dedent line.offset line.text).flatten := by
  induction lines generalizing offset with
  | nil => rfl
  | cons line rest ih => rw [movedLines, ih]; rfl

theorem areLines_moved {lines : List Text} (are : Text.AreLines lines)
    (closes : Closes lines.flatten) : Text.AreLines
      ((Text.linesFrom offset lines).map fun line => s.movedLine dedent line.offset line.text) := by
  induction are generalizing offset with
  | nil => exact .nil
  | @last line some plain =>
      have loses := s.moves_movedLine dedent ⟨offset, line⟩
      have solid := closes (line.getLast some)
        (by rw [List.flatten_singleton, List.getLast?_eq_some_getLast some])
      have stays := loses.mem_of_visible (List.getLast_mem some) solid
      exact .last (List.ne_nil_of_mem stays) fun member => plain (loses.subset member)
  | @cons line rest plain _ ih =>
      obtain ⟨left, same, stays⟩ :=
        (s.moves_movedLine dedent ⟨offset, line ++ ['\n']⟩).terminated plain
      rw [Text.linesFrom, List.map_cons, same]
      exact .cons stays (ih closes.suffix)

theorem lines_copy {span : Span} {first : Text} {rest : List Text}
    (parts : (s.slice span).lines = first :: rest) (closes : Closes (s.slice span)) :
    (s.copy dedent span).lines =
      first :: (Text.linesFrom (span.start + first.byteLength) rest).map fun line =>
        s.movedLine dedent line.offset line.text := by
  have are := (s.slice span).areLines
  rw [← Text.flatten_lines (s.slice span), parts] at closes
  rw [parts] at are
  rw [copy, shift_lines, parts, movedFrom, Text.stripIndent_zero, movedLines_eq_flatten,
    ← List.flatten_cons]
  apply Text.AreLines.lines_flatten
  cases are with
  | last some plain => exact .last some plain
  | cons plain rest => exact .cons plain (areLines_moved rest closes.suffix)

/-- A line that is to keep its place beside the others of its block. No literal is open where it
starts, and it is no less deep than the block, if that starts on a line of its own; else it is not
blank, since the shallowest such line decides how deep the block is. -/
def Aligned (s : Source) (region content : Span) (line : Line) : Prop :=
  s.inLiteral line.offset = false ∧
    if '\n' ∈ s.slice ⟨region.start, content.start⟩ then
      s.blockIndent region content ≤ line.text.indentWidth
    else line.text.all isBlank = false

theorem mem_deciding {line : Line} {lines : List Text}
    (member : line ∈ Text.linesFrom offset lines) (free : s.inLiteral line.offset = false)
    (visible : line.text.all isBlank = false) :
    line.text.indentWidth ∈ s.deciding offset lines := by
  induction lines generalizing offset with
  | nil => cases member
  | cons first rest ih =>
      rw [deciding]
      rcases List.mem_cons.mp member with rfl | member
      · simp only [free, visible, Bool.or_self]
        exact List.mem_cons_self
      · have later := ih member
        split
        · exact later
        · exact List.mem_cons_of_mem _ later

theorem Aligned.le {region content : Span} {line : Line} {first : Text} {rest : List Text}
    (aligned : s.Aligned region content line) (parts : (s.slice content).lines = first :: rest)
    (member : line ∈ Text.linesFrom (content.start + first.byteLength) rest) :
    s.blockIndent region content ≤ line.text.indentWidth := by
  obtain ⟨free, deep⟩ := aligned
  by_cases own : '\n' ∈ s.slice ⟨region.start, content.start⟩
  · rwa [if_pos own] at deep
  · rw [if_neg own] at deep
    rw [blockIndent, if_neg own, parts]
    exact List.min?_getD_le_of_mem (mem_deciding member free deep)

/-- A block that is lifted: its first line stays as it is, and the others come in order, each of
them less what it loses. -/
structure Lifted (s : Source) (region content : Span) (dedent : Nat) (first : Text)
    (later : List Line) (moved : List Text) : Prop where
  before : Text.linesFrom content.start (s.slice content).lines = ⟨content.start, first⟩ :: later
  after : (s.render content [] dedent).lines = first :: moved
  each : List.Forall₂ (s.Moves dedent) later moved
  visible : ∀ line ∈ later.zip moved,
    line.2.filter (!isBlank ·) = line.1.text.filter (!isBlank ·)
  aligned : ∀ line ∈ later.zip moved, s.Aligned region content line.1 →
    line.1.text.Loses line.2 dedent
  relative : ∀ a ∈ later.zip moved, ∀ b ∈ later.zip moved,
    s.Aligned region content a.1 → s.Aligned region content b.1 →
      (a.1.text.indentWidth : Int) - b.1.text.indentWidth = a.2.indentWidth - b.2.indentWidth

end Source

/-- However far to the left a block is lifted, its lines come out in order, none loses anything but
spaces and tabs, and those aligned with the block keep how they are indented against each other. -/
theorem lift_keeps_indentation (s : Source) {region content : Span}
    (names : s.text.Names region) (trimmed : s.trim region = some content) (target : Nat) :
    ∃ first later moved,
      s.Lifted region content (s.blockIndent region content - target) first later moved := by
  obtain ⟨before, inner, after, whole, place⟩ := names
  obtain ⟨front, part, back, parts, span, solid⟩ := (Text.trim_holds whole place trimmed).1
  have slice : s.slice content = part := by
    rw [span]
    exact Text.slice_eq parts rfl rfl
  cases lines : (s.slice content).lines with
  | nil =>
      have nothing := Text.flatten_lines (s.slice content)
      rw [lines, slice] at nothing
      exact absurd nothing.symm solid.ne_nil
  | cons first rest =>
      let dedent := s.blockIndent region content - target
      let later := Text.linesFrom (content.start + first.byteLength) rest
      let moved := later.map fun line => s.movedLine dedent line.offset line.text
      have each : List.Forall₂ (s.Moves dedent) later moved :=
        List.forall₂_map_right_iff.mpr
          (List.forall₂_same.mpr fun line _ => s.moves_movedLine dedent line)
      have loses (line : Line × Text) (member : line ∈ later.zip moved) :
          s.Moves dedent line.1 line.2 := List.forall₂_zip each member
      have aligned (line : Line × Text) (member : line ∈ later.zip moved)
          (aligned : s.Aligned region content line.1) : line.1.text.Loses line.2 dedent := by
        have le := aligned.le lines (List.of_mem_zip member).1
        have moves := loses line member
        rwa [Source.Moves, aligned.1, if_neg Bool.false_ne_true,
          Nat.min_eq_left (by omega)] at moves
      refine ⟨first, later, moved, ?_, ?_, each, ?_, aligned, ?_⟩
      · rw [lines, Text.linesFrom]
      · rw [Source.render, List.filter_nil, Source.splice]
        exact Source.lines_copy lines (slice ▸ Source.closes_of_solid solid)
      · exact fun line member => (loses line member).visible
      · intro a memberA b memberB alignedA alignedB
        have indentA := (aligned a memberA alignedA).indentWidth
        have indentB := (aligned b memberB alignedB).indentWidth
        omega

theorem lift_keeps_indentation_template :
    let s : Source := ⟨"\x7b a();\n    b(`\n  `);\n \n      c();\n\x7d".toList, [⟨13, 18⟩]⟩
    s.text.Names ⟨1, 34⟩ ∧ s.trim ⟨1, 34⟩ = some ⟨2, 33⟩ ∧ s.blockIndent ⟨1, 34⟩ ⟨2, 33⟩ = 4 ∧
      s.render ⟨2, 33⟩ [] (4 - 1) = "a();\n b(`\n  `);\n\n   c();".toList ∧
      ∃ first later moved, s.Lifted ⟨1, 34⟩ ⟨2, 33⟩ (4 - 1) first later moved := by
  intro s
  have names : s.text.Names ⟨1, 34⟩ := by decide
  have trimmed : s.trim ⟨1, 34⟩ = some ⟨2, 33⟩ := by decide
  have depth : s.blockIndent ⟨1, 34⟩ ⟨2, 33⟩ = 4 := by decide
  have lifted := lift_keeps_indentation s names trimmed 1
  rw [depth] at lifted
  exact ⟨names, trimmed, depth, by decide, lifted⟩

end AmdUnwrap
