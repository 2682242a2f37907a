import AmdUnwrap.Proofs.Boundary
import AmdUnwrap.Proofs.Text.Line

/-!
Arithmetic on offsets, and parts of a text, with every check that a program makes of them: no
difference is below zero, no sum outgrows four bytes, and no part starts behind its end or cuts a
character. A check that fails is `none`.
-/

namespace AmdUnwrap

namespace Checked

/-- Offsets are kept in four bytes. -/
def offsetLimit : Nat := 0x100000000

def narrow (n : Nat) : Option Nat := if n < offsetLimit then some n else none

def add (a b : Nat) : Option Nat := narrow (a + b)

def sub (a b : Nat) : Option Nat := if b ≤ a then some (a - b) else none

theorem narrow_eq {n : Nat} (short : n < offsetLimit) : narrow n = some n := if_pos short

theorem add_eq {a b : Nat} (short : a + b < offsetLimit) : add a b = some (a + b) :=
  narrow_eq short

theorem sub_eq {a b : Nat} (le : b ≤ a) : sub a b = some (a - b) := if_pos le

end Checked

namespace Text

def isBoundary (text : Text) (offset : Nat) : Bool := (text.takeBytes offset).byteLength == offset

theorem isBoundary_iff {text : Text} {offset : Nat} :
    text.isBoundary offset = true ↔ text.Boundary offset := by
  rw [isBoundary, beq_iff_eq]
  constructor
  · intro same
    exact ⟨_, _, (take_append_drop offset text).symm, same.symm⟩
  · rintro ⟨before, after, rfl, rfl⟩
    rw [takeBytes_byteLength]

/-- Whether the span starts no later than it stops, and both where the text can be parted. -/
def isPart (text : Text) (span : Span) : Bool :=
  span.start ≤ span.stop && text.isBoundary span.start && text.isBoundary span.stop

theorem isPart_iff {text : Text} {span : Span} : text.isPart span = true ↔ text.Names span := by
  rw [isPart, Bool.and_eq_true, Bool.and_eq_true, decide_eq_true_eq, isBoundary_iff, isBoundary_iff]
  constructor
  · rintro ⟨⟨le, start⟩, stop⟩
    exact names_of_boundaries start stop le
  · intro names
    obtain ⟨start, stop⟩ := names.boundaries
    exact ⟨⟨names.le, start⟩, stop⟩

instance (text : Text) (span : Span) : Decidable (text.Names span) := decidable_of_iff _ isPart_iff

def lineFeed? (text : Text) : Option Nat :=
  if '\n' ∈ text then some (byteLength (text.takeWhile (· ≠ '\n'))) else none

def lastLineFeed? (text : Text) : Option Nat :=
  if '\n' ∈ text then some text.aboveLastLine.byteLength else none

end Text

namespace Checked

def slice (text : Text) (span : Span) : Option Text :=
  if text.isPart span then some (text.slice span) else none

theorem slice_eq {text : Text} {span : Span} (names : text.Names span) :
    slice text span = some (text.slice span) := if_pos (Text.isPart_iff.mpr names)

example : slice "aéb".toList ⟨1, 3⟩ = some ['é'] ∧ slice "aéb".toList ⟨1, 2⟩ = none := by decide

theorem slice_parts {text before part after : Text} {span : Span}
    (whole : text = before ++ (part ++ after)) (start : span.start = before.byteLength)
    (stop : span.stop = before.byteLength + part.byteLength) : slice text span = some part := by
  have names : text.Names span := by
    obtain ⟨first, last⟩ := span
    cases start
    cases stop
    exact ⟨before, part, after, whole, rfl⟩
  rw [slice_eq names, Text.slice_eq whole start stop]

theorem slice_front {text front rest : Text} {offset : Nat} (whole : text = front ++ rest)
    (stop : offset = front.byteLength) : slice text ⟨0, offset⟩ = some front := by
  have parts : text = [] ++ (front ++ rest) := whole
  exact slice_parts parts rfl (stop.trans (Nat.zero_add _).symm)

theorem slice_back {text front rest : Text} {offset : Nat} (whole : text = front ++ rest)
    (start : offset = front.byteLength) : slice text ⟨offset, text.byteLength⟩ = some rest := by
  have parts : text = front ++ (rest ++ []) := by rw [List.append_nil, whole]
  apply slice_parts parts start
  rw [whole, Text.byteLength_append]

theorem add_front {front part back text : Text} (short : text.byteLength < offsetLimit)
    (whole : text = front ++ (part ++ back)) :
    add front.byteLength part.byteLength = some (Text.byteLength (front ++ part)) := by
  rw [whole, Text.byteLength_append, Text.byteLength_append] at short
  rw [Text.byteLength_append]
  exact add_eq (by omega)

theorem sub_dropWhile (p : Char → Bool) (text : Text) :
    sub text.byteLength (Text.byteLength (text.dropWhile p)) =
      some (Text.byteLength (text.takeWhile p)) := by
  have parts : Text.byteLength (text.takeWhile p) + Text.byteLength (text.dropWhile p) =
      text.byteLength := by
    rw [← Text.byteLength_append, List.takeWhile_append_dropWhile]
  rw [sub_eq (by omega)]
  congr 1
  omega

end Checked
end AmdUnwrap
