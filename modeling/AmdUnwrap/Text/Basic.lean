/-!
Texts as lists of characters, addressed by UTF-8 byte offsets, and the spans that name parts
of them.
-/

namespace AmdUnwrap

abbrev Text := List Char

namespace Text

/-- Offsets count the bytes of the UTF-8 form, so a character weighs one to four. -/
def byteLength : Text → Nat
  | [] => 0
  | c :: cs => c.utf8Size + byteLength cs

/-- What follows the first `n` bytes; a character that the cut would split is dropped whole. -/
def dropBytes : Nat → Text → Text
  | 0, cs => cs
  | _ + 1, [] => []
  | n + 1, c :: cs => dropBytes (n + 1 - c.utf8Size) cs

/-- The first `n` bytes; a character that the cut would split is kept whole. -/
def takeBytes : Nat → Text → Text
  | 0, _ => []
  | _ + 1, [] => []
  | n + 1, c :: cs => c :: takeBytes (n + 1 - c.utf8Size) cs

theorem byteLength_append (a b : Text) : byteLength (a ++ b) = byteLength a + byteLength b := by
  induction a with
  | nil => simp [byteLength]
  | cons c cs ih => simp [byteLength, ih, Nat.add_assoc]

theorem take_append_drop (n : Nat) (cs : Text) : takeBytes n cs ++ dropBytes n cs = cs := by
  induction cs generalizing n with
  | nil => cases n <;> rfl
  | cons c cs ih => cases n <;> simp [takeBytes, dropBytes, ih]

theorem takeBytes_byteLength (a b : Text) : takeBytes (byteLength a) (a ++ b) = a := by
  induction a with
  | nil => simp [byteLength, takeBytes]
  | cons c cs ih =>
    obtain ⟨n, h⟩ := Nat.exists_eq_add_of_lt (Char.utf8Size_pos c)
    have width : byteLength (c :: cs) = n + byteLength cs + 1 := by simp [byteLength]; omega
    have left : n + byteLength cs + 1 - c.utf8Size = byteLength cs := by omega
    rw [width, List.cons_append, takeBytes, left, ih]

theorem dropBytes_byteLength (a b : Text) : dropBytes (byteLength a) (a ++ b) = b := by
  have whole := take_append_drop (byteLength a) (a ++ b)
  rw [takeBytes_byteLength] at whole
  exact List.append_cancel_left whole

end Text

structure Span where
  start : Nat
  stop : Nat
  deriving DecidableEq, Repr, Inhabited

namespace Span

def within (inner outer : Span) : Bool := outer.start ≤ inner.start && inner.stop ≤ outer.stop

def surrounds (span : Span) (offset : Nat) : Bool := span.start < offset && offset < span.stop

end Span

namespace Text

def slice (text : Text) (span : Span) : Text :=
  takeBytes (span.stop - span.start) (dropBytes span.start text)

theorem slice_middle (a b c : Text) :
    slice (a ++ (b ++ c)) ⟨byteLength a, byteLength a + byteLength b⟩ = b := by
  simp [slice, dropBytes_byteLength, takeBytes_byteLength]

end Text

def decimal (n : Nat) : Text := Nat.toDigits 10 n

end AmdUnwrap
