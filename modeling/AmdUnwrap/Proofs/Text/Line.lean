import Mathlib.Data.List.TakeWhile
import AmdUnwrap.Proofs.Text.Place
import AmdUnwrap.Text.Line

namespace AmdUnwrap

theorem utf8Size_of_isIndent {c : Char} (indent : isIndent c = true) : c.utf8Size = 1 := by
  simp only [isIndent, Bool.or_eq_true, beq_iff_eq] at indent
  rcases indent with rfl | rfl <;> rfl

namespace Text

theorem line_starts {text : Text} (lines : '\n' ∈ text) :
    ∃ rest, text.dropWhile (· ≠ '\n') = '\n' :: rest := by
  cases left : text.dropWhile (· ≠ '\n') with
  | nil =>
      have line := List.dropWhile_eq_nil_iff.mp left '\n' lines
      simp at line
  | cons c rest =>
      have first := List.head?_dropWhile_not (· ≠ '\n') text
      rw [left] at first
      simp at first
      exact ⟨rest, by rw [first]⟩

theorem first_line {text : Text} (lines : '\n' ∈ text) :
    ∃ rest, text = text.takeWhile (· ≠ '\n') ++ '\n' :: rest := by
  obtain ⟨rest, start⟩ := line_starts lines
  exact ⟨rest, by rw [← start, List.takeWhile_append_dropWhile]⟩

def aboveLastLine (text : Text) : Text := (text.reverse.dropWhile (· ≠ '\n')).tail.reverse

theorem last_line {text : Text} (lines : '\n' ∈ text) :
    text = text.aboveLastLine ++ '\n' :: text.lastLine := by
  obtain ⟨front, start⟩ := line_starts (List.mem_reverse.mpr lines)
  have parts : text.reverse.takeWhile (· ≠ '\n') ++ '\n' :: front = text.reverse := by
    rw [← start, List.takeWhile_append_dropWhile]
  rw [aboveLastLine, start, List.tail_cons, lastLine]
  generalize text.reverse.takeWhile (· ≠ '\n') = line at parts
  calc text
      = (line ++ '\n' :: front).reverse := by rw [parts, List.reverse_reverse]
    _ = front.reverse ++ '\n' :: line.reverse := by simp

theorem not_line_feed {text : Text} (line : '\n' ∉ text) :
    ∀ c ∈ text.reverse, decide (c ≠ '\n') = true := by
  intro c member
  rw [decide_eq_true_eq]
  rintro rfl
  exact line (List.mem_reverse.mp member)

theorem lastLine_of_not_mem {text : Text} (line : '\n' ∉ text) : text.lastLine = text := by
  rw [lastLine, List.takeWhile_eq_self_iff.mpr (not_line_feed line), List.reverse_reverse]

theorem aboveLastLine_of_not_mem {text : Text} (line : '\n' ∉ text) :
    text.aboveLastLine = [] := by
  rw [aboveLastLine, List.dropWhile_eq_nil_iff.mpr (not_line_feed line)]
  rfl

theorem not_mem_lastLine (text : Text) : '\n' ∉ text.lastLine := by
  intro member
  rw [lastLine, List.mem_reverse] at member
  have other := List.all_eq_true.mp List.all_takeWhile _ member
  simp at other

theorem lastLine_append_of_not_mem (front : Text) {line : Text} (plain : '\n' ∉ line) :
    lastLine (front ++ line) = front.lastLine ++ line := by
  rw [lastLine, List.reverse_append, List.takeWhile_append_of_pos (not_line_feed plain),
    List.reverse_append, List.reverse_reverse, lastLine]

theorem lastLine_line_feed (front : Text) {line : Text} (plain : '\n' ∉ line) :
    lastLine (front ++ '\n' :: line) = line := by
  have terminated : lastLine (front ++ ['\n']) = [] := by
    rw [lastLine, List.reverse_append]
    rfl
  calc lastLine (front ++ '\n' :: line)
      = lastLine (front ++ ['\n'] ++ line) := by simp
    _ = line := by rw [lastLine_append_of_not_mem _ plain, terminated, List.nil_append]

theorem lastLine_append_of_mem (front : Text) {rest : Text} (lines : '\n' ∈ rest) :
    lastLine (front ++ rest) = rest.lastLine := by
  calc lastLine (front ++ rest)
      = lastLine (front ++ rest.aboveLastLine ++ '\n' :: rest.lastLine) := by
        rw [List.append_assoc, ← last_line lines]
    _ = rest.lastLine := lastLine_line_feed _ rest.not_mem_lastLine

theorem byteLength_of_indent {text : Text} (all : ∀ c ∈ text, isIndent c = true) :
    text.byteLength = text.length := by
  induction text with
  | nil => rfl
  | cons c cs ih =>
      rw [List.forall_mem_cons] at all
      rw [byteLength, ih all.2, utf8Size_of_isIndent all.1, List.length_cons, Nat.add_comm]

theorem byteLength_indent (line : Text) :
    byteLength (line.takeWhile isIndent) = line.indentWidth :=
  byteLength_of_indent fun c member => List.all_eq_true.mp List.all_takeWhile c member

theorem not_mem_of_indent {text : Text} (indent : ∀ c ∈ text, isIndent c = true) :
    '\n' ∉ text :=
  fun member => absurd (indent '\n' member) (by decide)

theorem indentWidth_of_indent {line : Text} (indent : ∀ c ∈ line, isIndent c = true) :
    line.indentWidth = line.length := by
  rw [indentWidth, List.takeWhile_eq_self_iff.mpr indent]

def Unindented (text : Text) : Prop := ∃ c rest, text = c :: rest ∧ isIndent c = false

theorem Unindented.append {text : Text} (unindented : text.Unindented) (rest : Text) :
    Unindented (text ++ rest) := by
  obtain ⟨c, others, rfl, visible⟩ := unindented
  exact ⟨c, others ++ rest, rfl, visible⟩

theorem indentWidth_append (line : Text) {rest : Text} (unindented : rest.Unindented) :
    indentWidth (line ++ rest) = line.indentWidth := by
  obtain ⟨c, others, rfl, visible⟩ := unindented
  induction line with
  | nil => simp [indentWidth, visible]
  | cons e line ih =>
      rw [List.cons_append, indentWidth, indentWidth, List.takeWhile_cons, List.takeWhile_cons]
      split
      · rw [List.length_cons, List.length_cons]
        exact congrArg (· + 1) ih
      · rfl

theorem indentWidth_margin {margin rest : Text} (indent : ∀ c ∈ margin, isIndent c = true)
    (visible : ∀ c, rest.head? = some c → isIndent c = false) :
    indentWidth (margin ++ rest) = margin.length := by
  cases rest with
  | nil => rw [List.append_nil, indentWidth_of_indent indent]
  | cons c rest =>
      rw [indentWidth_append margin ⟨c, rest, rfl, visible c rfl⟩, indentWidth_of_indent indent]

theorem stripIndent_zero (line : Text) : line.stripIndent 0 = line := by
  rw [stripIndent, Nat.min_zero, List.drop_zero]

/-- `rest` is what `line` is without `width` spaces and tabs in front of it. -/
def Loses (line rest : Text) (width : Nat) : Prop :=
  ∃ dropped, line = dropped ++ rest ∧ (∀ c ∈ dropped, isIndent c = true) ∧ dropped.length = width

theorem loses_stripIndent (line : Text) (width : Nat) :
    line.Loses (line.stripIndent width) (min line.indentWidth width) := by
  have short : min line.indentWidth width ≤ (line.takeWhile isIndent).length :=
    Nat.min_le_left ..
  have indent : line.take (min line.indentWidth width) =
      (line.takeWhile isIndent).take (min line.indentWidth width) := by
    calc line.take (min line.indentWidth width)
        = (line.takeWhile isIndent ++ line.dropWhile isIndent).take
            (min line.indentWidth width) := by rw [List.takeWhile_append_dropWhile]
      _ = _ := List.take_append_of_le_length short
  refine ⟨line.take (min line.indentWidth width), (List.take_append_drop ..).symm, ?_, ?_⟩
  · rw [indent]
    intro c member
    exact List.all_eq_true.mp List.all_takeWhile c (List.mem_of_mem_take member)
  · rw [indent, List.length_take, Nat.min_eq_left short]

namespace Loses

variable {line rest : Text} {width : Nat}

theorem indentWidth (loses : line.Loses rest width) :
    line.indentWidth = width + rest.indentWidth := by
  obtain ⟨dropped, rfl, indent, rfl⟩ := loses
  rw [Text.indentWidth, List.takeWhile_append_of_pos indent, List.length_append]
  rfl

theorem visible (loses : line.Loses rest width) :
    rest.filter (!isBlank ·) = line.filter (!isBlank ·) := by
  obtain ⟨dropped, rfl, indent, -⟩ := loses
  have none : dropped.filter (!isBlank ·) = [] := by
    rw [List.filter_eq_nil_iff]
    intro c member
    simp [isBlank_of_isIndent (indent c member)]
  rw [List.filter_append, none, List.nil_append]

theorem mem_of_visible (loses : line.Loses rest width) {c : Char} (member : c ∈ line)
    (visible : isBlank c = false) : c ∈ rest := by
  have kept : c ∈ line.filter (!isBlank ·) := List.mem_filter.mpr ⟨member, by simp [visible]⟩
  rw [← loses.visible] at kept
  exact (List.mem_filter.mp kept).1

theorem subset (loses : line.Loses rest width) : rest ⊆ line := by
  obtain ⟨dropped, rfl, -⟩ := loses
  exact List.subset_append_right dropped rest

end Loses

end Text
end AmdUnwrap
