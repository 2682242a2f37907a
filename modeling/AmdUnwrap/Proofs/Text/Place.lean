import AmdUnwrap.Syntax.Identifier
import AmdUnwrap.Syntax.Token
import AmdUnwrap.Text.Line

namespace AmdUnwrap

/-- Between two places stands this text. -/
structure Place.Leads (p : Place) (passed : Text) (q : Place) : Prop where
  rest : p.rest = passed ++ q.rest
  offset : q.offset = p.offset + passed.byteLength

namespace Place.Leads

theorem refl (p : Place) : p.Leads [] p := ⟨rfl, rfl⟩

theorem trans {p q r : Place} {a b : Text} (first : p.Leads a q) (later : q.Leads b r) :
    p.Leads (a ++ b) r := by
  constructor
  · rw [first.rest, later.rest, List.append_assoc]
  · rw [later.offset, first.offset, Text.byteLength_append]
    omega

theorem cons {offset : Nat} {c : Char} {cs passed : Text} {q : Place}
    (later : (⟨offset + c.utf8Size, cs⟩ : Place).Leads passed q) :
    (⟨offset, c :: cs⟩ : Place).Leads (c :: passed) q := by
  constructor
  · exact congrArg (c :: ·) later.rest
  · rw [later.offset, Text.byteLength]
    exact Nat.add_assoc ..

theorem le {p q : Place} {passed : Text} (leads : p.Leads passed q) : p.offset ≤ q.offset := by
  rw [leads.offset]
  omega

end Place.Leads

theorem Place.skip_leads (n : Nat) (p : Place) : p.Leads (p.rest.take n) (p.skip n) := by
  obtain ⟨offset, text⟩ := p
  induction n generalizing offset text with
  | zero => exact .refl _
  | succ n ih =>
      cases text with
      | nil => exact .refl _
      | cons c cs => exact .cons (ih (offset + c.utf8Size) cs)

theorem Text.byteLength_pos {text : Text} (some : text ≠ []) : 0 < text.byteLength := by
  cases text with
  | nil => exact absurd rfl some
  | cons c cs =>
      have := c.utf8Size_pos
      rw [byteLength]
      omega

namespace Text

theorem byteLength_eq_zero {text : Text} : text.byteLength = 0 ↔ text = [] := by
  constructor
  · intro zero
    by_cases some : text = []
    · exact some
    · have := byteLength_pos some
      omega
  · rintro rfl
    rfl

/-- Of two ways to part a text, the one that parts it later parts the rest of the other. -/
theorem part_rest {a b c d : Text} (same : a ++ b = c ++ d) (le : a.byteLength ≤ c.byteLength) :
    ∃ between, c = a ++ between ∧ b = between ++ d := by
  rcases List.append_eq_append_iff.mp same with ⟨k, rfl, rfl⟩ | ⟨k, rfl, rfl⟩
  · exact ⟨k, rfl, rfl⟩
  · rw [byteLength_append] at le
    obtain rfl := byteLength_eq_zero.mp (show byteLength k = 0 by omega)
    exact ⟨[], by simp, rfl⟩

theorem slice_eq {text before part after : Text} {span : Span}
    (whole : text = before ++ (part ++ after)) (start : span.start = before.byteLength)
    (stop : span.stop = before.byteLength + part.byteLength) : text.slice span = part := by
  obtain ⟨first, last⟩ := span
  cases start
  cases stop
  rw [whole]
  exact slice_middle before part after

theorem slice_empty {text : Text} {span : Span} (empty : span.stop ≤ span.start) :
    text.slice span = [] := by
  rw [slice, Nat.sub_eq_zero_of_le empty, takeBytes]

end Text

/-- Starts and ends with a character that is no white space. -/
def Text.Solid (text : Text) : Prop :=
  (∃ c, text.head? = some c ∧ isBlank c = false) ∧
    ∃ c, text.getLast? = some c ∧ isBlank c = false

namespace Text.Solid

theorem ne_nil {text : Text} (solid : text.Solid) : text ≠ [] := by
  rintro rfl
  obtain ⟨⟨c, head, -⟩, -⟩ := solid
  cases head

theorem join {a b : Text} (between : Text) (first : a.Solid) (last : b.Solid) :
    Solid (a ++ (between ++ b)) := by
  obtain ⟨⟨c, head, opens⟩, -⟩ := first
  obtain ⟨-, ⟨e, tail, closes⟩⟩ := last
  refine ⟨⟨c, ?_, opens⟩, ⟨e, ?_, closes⟩⟩
  · rw [List.head?_append, head]
    rfl
  · rw [List.getLast?_append, List.getLast?_append, tail]
    rfl

theorem of_all {text : Text} (some : text ≠ []) (all : ∀ c ∈ text, isBlank c = false) :
    text.Solid := by
  constructor
  · exact ⟨text.head some, List.head?_eq_some_head some, all _ (List.head_mem some)⟩
  · exact ⟨text.getLast some, List.getLast?_eq_some_getLast some, all _ (List.getLast_mem some)⟩

theorem of_ends {first last : Char} (inner : Text) (opening : isBlank first = false)
    (closing : isBlank last = false) : Solid (first :: inner ++ [last]) := by
  constructor
  · exact ⟨first, rfl, opening⟩
  · exact ⟨last, List.getLast?_concat, closing⟩

end Text.Solid

def blankPoints : List Nat :=
  [0x09, 0x0a, 0x0b, 0x0c, 0x0d, 0x20, 0x85, 0xa0, 0x1680, 0x2000, 0x2001, 0x2002, 0x2003, 0x2004,
    0x2005, 0x2006, 0x2007, 0x2008, 0x2009, 0x200a, 0x2028, 0x2029, 0x202f, 0x205f, 0x3000]

theorem toNat_mem_blankPoints {c : Char} (blank : isBlank c = true) : c.toNat ∈ blankPoints := by
  simp [isBlank, blankRanges] at blank
  simp [blankPoints]
  omega

theorem continues_ofNat_blankPoints :
    ∀ n ∈ blankPoints, Identifier.continues (Char.ofNat n) = false := by
  decide +kernel

theorem isBlank_of_continues {c : Char} (continues : Identifier.continues c = true) :
    isBlank c = false := by
  cases blank : isBlank c with
  | false => rfl
  | true =>
      have refused := continues_ofNat_blankPoints _ (toNat_mem_blankPoints blank)
      rw [Char.ofNat_toNat] at refused
      exact absurd continues (Bool.eq_false_iff.mp refused)

end AmdUnwrap
