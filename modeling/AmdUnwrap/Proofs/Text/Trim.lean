import Mathlib.Data.List.TakeWhile
import AmdUnwrap.Proofs.Text.Place

namespace AmdUnwrap.Text

def Blank (text : Text) : Prop := ∀ c ∈ text, isBlank c = true

theorem blank_takeWhile (text : Text) : Blank (text.takeWhile isBlank) := by
  intro c member
  exact List.all_eq_true.mp List.all_takeWhile c member

theorem not_blank_head {c : Char} {text rest : Text} (left : text.dropWhile isBlank = c :: rest) :
    isBlank c = false := by
  have first := List.head?_dropWhile_not isBlank text
  rw [left] at first
  exact first

theorem trimEnd_solid {c : Char} (rest : Text) (opening : isBlank c = false) :
    (trimEnd (c :: rest)).Solid ∧
      ∃ right, c :: rest = trimEnd (c :: rest) ++ right ∧ Blank right := by
  have parts : c :: rest = trimEnd (c :: rest) ++
      ((c :: rest).reverse.takeWhile isBlank).reverse := by
    rw [trimEnd, ← List.reverse_append, List.takeWhile_append_dropWhile, List.reverse_reverse]
  refine ⟨?_, _, parts, fun e member => blank_takeWhile _ e (List.mem_reverse.mp member)⟩
  cases left : (c :: rest).reverse.dropWhile isBlank with
  | nil =>
      have blank := List.dropWhile_eq_nil_iff.mp left c (by simp)
      rw [opening] at blank
      cases blank
  | cons e others =>
      have same : trimEnd (c :: rest) = others.reverse ++ [e] := by
        rw [trimEnd, left, List.reverse_cons]
      constructor
      · have head := congrArg List.head? parts
        have some : trimEnd (c :: rest) ≠ [] := by simp [same]
        rw [List.head?_append, List.head?_eq_some_head some] at head
        rw [List.head?_eq_some_head some]
        exact ⟨c, head.symm, opening⟩
      · exact ⟨e, by rw [same, List.getLast?_concat], not_blank_head left⟩

/-- A part of a text is white space only, or white space around something solid. -/
theorem trim_cases {text before inner after : Text} {region : Span}
    (whole : text = before ++ (inner ++ after))
    (span : region = ⟨before.byteLength, before.byteLength + inner.byteLength⟩) :
    (text.trim region = none ∧ Blank inner) ∨ ∃ left part right, inner = left ++ (part ++ right) ∧
      Blank left ∧ Blank right ∧ part.Solid ∧
      text.trim region = some ⟨before.byteLength + left.byteLength,
        before.byteLength + left.byteLength + part.byteLength⟩ := by
  have slice : text.slice region = inner := by
    rw [whole, span]
    exact slice_middle before inner after
  have parts : inner.takeWhile isBlank ++ inner.dropWhile isBlank = inner :=
    List.takeWhile_append_dropWhile
  simp only [trim, slice, trimStart]
  cases left : inner.dropWhile isBlank with
  | nil =>
      rw [left, List.append_nil] at parts
      exact .inl ⟨rfl, parts ▸ blank_takeWhile inner⟩
  | cons c rest =>
      obtain ⟨solid, right, ending, blank⟩ := trimEnd_solid rest (not_blank_head left)
      rw [left, ending] at parts
      refine .inr ⟨_, _, right, parts.symm, blank_takeWhile inner, blank, solid, ?_⟩
      rw [span]

variable {before blank after front part rest : Text}

theorem solid_starts_past (whole : before ++ (blank ++ after) = front ++ (part ++ rest))
    (isBlank : Blank blank) (solid : part.Solid) (start : before.byteLength ≤ front.byteLength) :
    before.byteLength + blank.byteLength ≤ front.byteLength := by
  apply Nat.le_of_not_lt
  intro lt
  obtain ⟨k, rfl, inner⟩ := part_rest whole start
  rw [byteLength_append] at lt
  obtain ⟨m, rfl, same⟩ := part_rest inner.symm (by omega)
  rw [byteLength_append] at lt
  obtain ⟨⟨c, head, solid⟩, -⟩ := solid
  cases m with
  | nil => simp [byteLength] at lt
  | cons e m =>
      have heads := congrArg List.head? same
      rw [List.head?_append, head] at heads
      cases heads
      rw [isBlank c (by simp)] at solid
      cases solid

theorem solid_stops_before (whole : before ++ (blank ++ after) = front ++ (part ++ rest))
    (isBlank : Blank blank) (solid : part.Solid)
    (stop : front.byteLength + part.byteLength ≤ before.byteLength + blank.byteLength) :
    front.byteLength + part.byteLength ≤ before.byteLength := by
  apply Nat.le_of_not_lt
  intro lt
  rw [← byteLength_append] at lt stop
  rw [← List.append_assoc front] at whole
  obtain ⟨k, same, inner⟩ := part_rest whole (Nat.le_of_lt lt)
  rw [same, byteLength_append] at lt stop
  obtain ⟨m, rfl, -⟩ := part_rest inner.symm (by omega)
  obtain ⟨-, ⟨c, last, solid⟩⟩ := solid
  rcases List.eq_nil_or_concat k with rfl | ⟨k, e, rfl⟩
  · simp [byteLength] at lt
  · rw [List.concat_eq_append] at same isBlank
    have lasts := congrArg List.getLast? same
    rw [List.getLast?_append, last, ← List.append_assoc, List.getLast?_concat] at lasts
    cases lasts
    rw [isBlank c (by simp)] at solid
    cases solid

end AmdUnwrap.Text
