import AmdUnwrap.Proofs.Text.Line
import AmdUnwrap.Splice

namespace AmdUnwrap.Source

def movedLine (s : Source) (dedent offset : Nat) (line : Text) : Text :=
  if s.inLiteral offset then line else line.stripIndent dedent

def movedLines (s : Source) (dedent : Nat) : (offset : Nat) → List Text → Text
  | _, [] => []
  | offset, line :: rest =>
    s.movedLine dedent offset line ++ s.movedLines dedent (offset + line.byteLength) rest

/-- Lines of which the first has been entered, where `budget` may still be dropped on it. -/
def movedFrom (s : Source) (dedent budget offset : Nat) : List Text → Text
  | [] => []
  | first :: rest =>
    first.stripIndent budget ++ s.movedLines dedent (offset + first.byteLength) rest

variable {s : Source} {dedent : Nat}

theorem movedLines_eq (offset : Nat) (lines : List Text) : s.movedLines dedent offset lines =
    s.movedFrom dedent (if s.inLiteral offset then 0 else dedent) offset lines := by
  cases lines with
  | nil => rfl
  | cons first rest =>
      rw [movedLines, movedLine, movedFrom]
      split
      · rw [Text.stripIndent_zero]
      · rfl

theorem stripIndent_cons {c : Char} {line : Text} {budget : Nat}
    (indent : (isIndent c && budget != 0) = true) :
    Text.stripIndent (c :: line) budget = line.stripIndent (budget - 1) := by
  rw [Bool.and_eq_true, bne_iff_ne] at indent
  obtain ⟨left, rfl⟩ := Nat.exists_eq_succ_of_ne_zero indent.2
  have width : Text.indentWidth (c :: line) = line.indentWidth + 1 := by
    rw [Text.indentWidth, List.takeWhile_cons_of_pos indent.1, List.length_cons]
    rfl
  rw [Text.stripIndent, width, Nat.succ_min_succ, List.drop_succ_cons]
  rfl

theorem stripIndent_stays {c : Char} {line : Text} {budget : Nat}
    (stays : ¬ (isIndent c && budget != 0) = true) :
    Text.stripIndent (c :: line) budget = c :: line := by
  have none : min (Text.indentWidth (c :: line)) budget = 0 := by
    by_cases indent : isIndent c = true
    · have zero : budget = 0 := by simpa [indent] using stays
      rw [zero, Nat.min_zero]
    · have width : Text.indentWidth (c :: line) = 0 := by
        rw [Text.indentWidth, List.takeWhile_cons_of_neg indent]
        rfl
      rw [width, Nat.zero_min]
  rw [Text.stripIndent, none, List.drop_zero]

theorem shift_lines (budget offset : Nat) (text : Text) :
    s.shift dedent budget offset text = s.movedFrom dedent budget offset text.lines := by
  induction text generalizing budget offset with
  | nil => rfl
  | cons c cs ih =>
      rw [shift, Text.lines]
      by_cases line : c = '\n'
      · subst line
        have plain : isIndent '\n' = false := by decide
        have alone : Text.stripIndent ['\n'] budget = ['\n'] :=
          stripIndent_stays (by simp [plain])
        rw [if_pos rfl, if_pos rfl, ih, movedFrom, alone, movedLines_eq]
        rfl
      · rw [if_neg line, if_neg line]
        by_cases dropped : (isIndent c && budget != 0) = true
        · rw [if_pos dropped, ih]
          cases Text.lines cs with
          | nil =>
              rw [movedFrom, movedFrom, stripIndent_cons dropped]
              rfl
          | cons first rest =>
              rw [movedFrom, movedFrom, stripIndent_cons dropped, Text.byteLength, Nat.add_assoc]
        · rw [if_neg dropped, ih]
          cases Text.lines cs with
          | nil =>
              rw [movedFrom, movedFrom, stripIndent_stays dropped]
              rfl
          | cons first rest =>
              rw [movedFrom, movedFrom, stripIndent_stays dropped, Text.stripIndent_zero,
                Text.byteLength, Nat.add_assoc]
              rfl

end AmdUnwrap.Source
