import Mathlib.Order.Bounds.Basic
import AmdUnwrap.Proofs.Checked.Slice
import AmdUnwrap.Text.Line

/-!
Lines and columns tell the offsets of a text apart: the offset of a place is found again by
counting line feeds and then characters, and a later offset has a later place.
-/

namespace AmdUnwrap

namespace Text

def offsetAfter? : (lineFeeds characters : Nat) → Text → Option Nat
  | 0, 0, _ => some 0
  | 0, _ + 1, [] => none
  | 0, n + 1, c :: cs => if c = '\n' then none else (offsetAfter? 0 n cs).map (c.utf8Size + ·)
  | _ + 1, _, [] => none
  | k + 1, n, c :: cs =>
    (offsetAfter? (if c = '\n' then k else k + 1) n cs).map (c.utf8Size + ·)

end Text

/-- The offset of a place in a text; no line and no column comes before the first. -/
def LineColumn.offset? (text : Text) : LineColumn → Option Nat
  | ⟨line + 1, column + 1⟩ => text.offsetAfter? line column
  | _ => none

/-- Comes on an earlier line, or further to the left on the same line. -/
def LineColumn.Precedes (first later : LineColumn) : Prop :=
  first.line < later.line ∨ first.line = later.line ∧ first.column < later.column

theorem LineColumn.Precedes.ne {first later : LineColumn} (precedes : first.Precedes later) :
    first ≠ later := by
  rintro rfl
  unfold Precedes at precedes
  omega

theorem LineColumn.Precedes.asymm {first later : LineColumn} (precedes : first.Precedes later) :
    ¬ later.Precedes first := by
  unfold Precedes at precedes ⊢
  omega

namespace Text

theorem lastLine_cons (c : Char) (text : Text) : lastLine (c :: text) =
    if '\n' ∈ text then text.lastLine else if c = '\n' then text else c :: text := by
  by_cases lines : '\n' ∈ text
  · rw [if_pos lines]
    exact lastLine_append_of_mem [c] lines
  rw [if_neg lines]
  by_cases feed : c = '\n'
  · rw [if_pos feed, feed]
    exact lastLine_append_of_not_mem ['\n'] lines
  · rw [if_neg feed]
    apply lastLine_of_not_mem
    rw [List.mem_cons, not_or]
    exact ⟨Ne.symm feed, lines⟩

theorem offsetAfter?_before (before after : Text) :
    offsetAfter? (before.count '\n') before.lastLine.length (before ++ after) =
      some before.byteLength := by
  induction before with
  | nil => simp [lastLine, offsetAfter?, byteLength]
  | cons c cs ih =>
      rw [List.cons_append, lastLine_cons, byteLength]
      by_cases lines : '\n' ∈ cs
      · obtain ⟨k, count⟩ := Nat.exists_eq_add_of_lt (List.count_pos_iff.mpr lines)
        rw [if_pos lines]
        by_cases feed : c = '\n'
        · subst feed
          rw [List.count_cons_self, offsetAfter?, if_pos rfl, ih, Option.map_some]
        · rw [List.count_cons_of_ne feed, count, offsetAfter?, if_neg feed, ← count, ih,
            Option.map_some]
      · rw [List.count_eq_zero.mpr lines, lastLine_of_not_mem lines] at ih
        rw [if_neg lines]
        by_cases feed : c = '\n'
        · subst feed
          rw [if_pos rfl, List.count_cons_self, List.count_eq_zero.mpr lines, offsetAfter?,
            if_pos rfl, ih, Option.map_some]
        · rw [if_neg feed, List.count_cons_of_ne feed, List.count_eq_zero.mpr lines,
            List.length_cons, offsetAfter?, if_neg feed, ih, Option.map_some]

theorem before_of_offsetAfter? {text : Text} {lineFeeds characters offset : Nat}
    (found : text.offsetAfter? lineFeeds characters = some offset) : ∃ before after,
      text = before ++ after ∧ before.count '\n' = lineFeeds ∧
        before.lastLine.length = characters ∧ before.byteLength = offset := by
  fun_induction offsetAfter? lineFeeds characters text generalizing offset with
  | case1 text =>
      cases found
      exact ⟨[], text, rfl, rfl, rfl, rfl⟩
  | case2 => cases found
  | case3 => cases found
  | case4 n c cs other ih =>
      obtain ⟨rest, inner, rfl⟩ := Option.map_eq_some_iff.mp found
      obtain ⟨before, after, rfl, count, length, rfl⟩ := ih inner
      have line := List.count_eq_zero.mp count
      refine ⟨c :: before, after, rfl, ?_, ?_, rfl⟩
      · rw [List.count_cons_of_ne other, count]
      · rw [lastLine_cons, if_neg line, if_neg other, List.length_cons, ← length,
          lastLine_of_not_mem line]
  | case5 => cases found
  | case6 k n c cs ih =>
      obtain ⟨rest, inner, rfl⟩ := Option.map_eq_some_iff.mp found
      obtain ⟨before, after, rfl, count, length, rfl⟩ := ih inner
      refine ⟨c :: before, after, rfl, ?_, ?_, rfl⟩
      · by_cases feed : c = '\n'
        · rw [if_pos feed] at count
          rw [feed, List.count_cons_self, count]
        · rw [if_neg feed] at count
          rw [List.count_cons_of_ne feed, count]
      · rw [lastLine_cons]
        by_cases lines : '\n' ∈ before
        · rw [if_pos lines, length]
        · rw [List.count_eq_zero.mpr lines] at count
          have feed : c = '\n' := by
            by_contra other
            rw [if_neg other] at count
            cases count
          rw [if_neg lines, if_pos feed, ← length, lastLine_of_not_mem lines]

theorem within_parts (bytes : Nat) (text : Text) : ∃ rest, text = text.within bytes ++ rest ∧
    (text.within bytes).byteLength ≤ bytes ∧
      ∀ c cs, rest = c :: cs → bytes < (text.within bytes).byteLength + c.utf8Size := by
  induction text generalizing bytes with
  | nil => exact ⟨[], rfl, Nat.zero_le _, nofun⟩
  | cons c cs ih =>
      rw [within]
      by_cases fits : c.utf8Size ≤ bytes
      · obtain ⟨rest, parts, le, more⟩ := ih (bytes - c.utf8Size)
        rw [if_pos fits]
        refine ⟨rest, congrArg (c :: ·) parts, ?_, fun e es same => ?_⟩
        · rw [byteLength]
          omega
        · have short := more e es same
          rw [byteLength]
          omega
      · rw [if_neg fits]
        refine ⟨c :: cs, rfl, Nat.zero_le _, fun e es same => ?_⟩
        cases same
        rw [byteLength]
        omega

theorem within_isGreatest (text : Text) (offset : Nat) :
    IsGreatest {b | text.Boundary b ∧ b ≤ min offset text.byteLength}
      (text.within offset).byteLength := by
  obtain ⟨rest, parts, le, more⟩ := within_parts offset text
  constructor
  · refine ⟨⟨_, rest, parts, rfl⟩, le_min le ?_⟩
    calc (text.within offset).byteLength
        ≤ (text.within offset).byteLength + rest.byteLength := Nat.le_add_right _ _
      _ = text.byteLength := by rw [← byteLength_append, ← parts]
  · rintro b ⟨⟨before, after, whole, rfl⟩, short⟩
    by_contra later
    obtain ⟨between, rfl, same⟩ := part_rest (parts.symm.trans whole) (by omega)
    rw [byteLength_append] at later short
    cases between with
    | nil => exact later (Nat.le_refl _)
    | cons c cs =>
        have := more c (cs ++ after) same
        rw [byteLength] at short
        omega

end Text

namespace Checked

/-- Steps back from an offset, a byte at a time, to where a character starts. -/
def stepBack (text : Text) : (offset : Nat) → Option Nat
  | 0 => if text.isBoundary 0 then some 0 else none
  | n + 1 => if text.isBoundary (n + 1) then some (n + 1) else stepBack text n

theorem stepBack_isGreatest (text : Text) (offset : Nat) : ∃ cut,
    stepBack text offset = some cut ∧ IsGreatest {b | text.Boundary b ∧ b ≤ offset} cut := by
  induction offset with
  | zero =>
      refine ⟨0, if_pos (Text.isBoundary_iff.mpr text.boundary_zero), ?_, ?_⟩
      · exact ⟨text.boundary_zero, Nat.le_refl 0⟩
      · exact fun b within => within.2
  | succ n ih =>
      rw [stepBack]
      by_cases here : text.isBoundary (n + 1) = true
      · rw [if_pos here]
        refine ⟨n + 1, rfl, ?_, fun b within => within.2⟩
        exact ⟨Text.isBoundary_iff.mp here, Nat.le_refl _⟩
      · rw [if_neg here]
        obtain ⟨cut, steps, ⟨boundary, le⟩, last⟩ := ih
        refine ⟨cut, steps, ⟨boundary, Nat.le_succ_of_le le⟩, fun b within => ?_⟩
        apply last
        refine ⟨within.1, Nat.le_of_lt_succ (Nat.lt_of_le_of_ne within.2 ?_)⟩
        rintro rfl
        exact here (Text.isBoundary_iff.mpr within.1)

def lineColumn (text : Text) (offset : Nat) : Option LineColumn := do
  let cut ← stepBack text (min offset text.byteLength)
  let before ← slice text ⟨0, cut⟩
  let start := (before.lastLineFeed?.map (· + 1)).getD 0
  let line ← slice before ⟨start, before.byteLength⟩
  return ⟨before.count '\n' + 1, line.length + 1⟩

theorem lastLine_eq (before : Text) :
    slice before ⟨(before.lastLineFeed?.map (· + 1)).getD 0, before.byteLength⟩ =
      some before.lastLine := by
  by_cases lines : '\n' ∈ before
  · have parts : before = (before.aboveLastLine ++ ['\n']) ++ before.lastLine := by
      rw [List.append_assoc]
      exact Text.last_line lines
    have found : before.lastLineFeed? = some before.aboveLastLine.byteLength := if_pos lines
    apply slice_back parts
    rw [found, Text.byteLength_append]
    rfl
  · have found : before.lastLineFeed? = none := if_neg lines
    rw [found, Text.lastLine_of_not_mem lines]
    exact slice_back (List.nil_append _).symm rfl

theorem lineColumn_eq (text : Text) (offset : Nat) :
    lineColumn text offset = some (text.lineColumn offset) := by
  obtain ⟨cut, steps, greatest⟩ := stepBack_isGreatest text (min offset text.byteLength)
  obtain ⟨rest, parts, -⟩ := Text.within_parts offset text
  have stops := greatest.unique (text.within_isGreatest offset)
  have opening : slice text ⟨0, cut⟩ = some (text.within offset) := slice_front parts stops
  simp only [lineColumn, steps, opening, lastLine_eq, Option.bind_eq_bind, Option.bind_some]
  rfl

end Checked

namespace Text

theorem within_boundary (before after : Text) :
    (before ++ after).within before.byteLength = before := by
  induction before with
  | nil =>
      cases after with
      | nil => rfl
      | cons c cs => exact if_neg (Nat.not_le_of_lt c.utf8Size_pos)
  | cons c cs ih =>
      rw [List.cons_append, byteLength, within, if_pos (Nat.le_add_right _ _),
        Nat.add_sub_cancel_left, ih]

theorem lineColumn_precedes {text : Text} {a b : Nat} (first : text.Boundary a)
    (second : text.Boundary b) (lt : a < b) :
    (text.lineColumn a).Precedes (text.lineColumn b) := by
  obtain ⟨before, rest, whole, rfl⟩ := first
  obtain ⟨upto, after, same, rfl⟩ := second
  obtain ⟨between, rfl, -⟩ := part_rest (whole.symm.trans same) (Nat.le_of_lt lt)
  have some : between ≠ [] := by
    rintro rfl
    rw [List.append_nil] at lt
    exact Nat.lt_irrefl _ lt
  have earlier : text.within before.byteLength = before := by
    rw [whole, within_boundary]
  have later : text.within (byteLength (before ++ between)) = before ++ between := by
    rw [same, within_boundary]
  rw [LineColumn.Precedes, lineColumn, lineColumn, earlier, later]
  by_cases lines : '\n' ∈ between
  · left
    have more := List.count_pos_iff.mpr lines
    rw [List.count_append]
    dsimp only
    omega
  · right
    have more := List.length_pos_iff.mpr some
    rw [List.count_append, List.count_eq_zero.mpr lines, lastLine_append_of_not_mem before lines,
      List.length_append]
    dsimp only
    omega

theorem offset?_eq_some_iff (text : Text) (offset : Nat) (place : LineColumn) :
    place.offset? text = some (text.within offset).byteLength ↔
      place = text.lineColumn offset := by
  obtain ⟨rest, parts, -⟩ := within_parts offset text
  constructor
  · intro found
    rcases place with ⟨_ | line, _ | column⟩
    · cases found
    · cases found
    · cases found
    · obtain ⟨before, after, whole, count, length, measure⟩ := before_of_offsetAfter? found
      have same := takeBytes_byteLength (text.within offset) rest
      have other := takeBytes_byteLength before after
      rw [← parts] at same
      rw [← whole, measure, same] at other
      rw [lineColumn, other, count, length]
  · rintro rfl
    have back := offsetAfter?_before (text.within offset) rest
    rwa [← parts] at back

end Text

/-- The line and the column of an offset are the one place that leads back to the last boundary
that is no later, which stepping back comes to; boundaries are ordered as their places are. -/
theorem lineColumn_locates (text : Text) :
    (∀ offset, Checked.lineColumn text offset = some (text.lineColumn offset) ∧
      ∃ cut, IsGreatest {b | text.Boundary b ∧ b ≤ min offset text.byteLength} cut ∧
        Checked.stepBack text (min offset text.byteLength) = some cut ∧
        ∀ place : LineColumn, place.offset? text = some cut ↔ place = text.lineColumn offset) ∧
    ∀ a b, text.Boundary a → text.Boundary b →
      (text.lineColumn a = text.lineColumn b ↔ a = b) ∧
      ((text.lineColumn a).Precedes (text.lineColumn b) ↔ a < b) := by
  constructor
  · intro offset
    obtain ⟨cut, steps, greatest⟩ := Checked.stepBack_isGreatest text (min offset text.byteLength)
    obtain rfl := greatest.unique (text.within_isGreatest offset)
    exact ⟨Checked.lineColumn_eq text offset, _, greatest, steps,
      text.offset?_eq_some_iff offset⟩
  · intro a b first second
    rcases Nat.lt_trichotomy a b with lt | rfl | lt
    · have precedes := Text.lineColumn_precedes first second lt
      exact ⟨iff_of_false precedes.ne lt.ne, iff_of_true precedes lt⟩
    · exact ⟨iff_of_true rfl rfl, iff_of_false (fun precedes => precedes.ne rfl) (Nat.lt_irrefl a)⟩
    · have precedes := Text.lineColumn_precedes second first lt
      exact ⟨iff_of_false precedes.ne.symm lt.ne',
        iff_of_false precedes.asymm (Nat.lt_asymm lt)⟩

theorem lineColumn_locates_wide_character :
    let text : Text := "a\né\nb".toList
    text.Boundary 2 ∧ text.Boundary 5 ∧ text.lineColumn 3 = ⟨2, 1⟩ ∧
      text.lineColumn 9 = ⟨3, 2⟩ ∧ Checked.stepBack text 3 = some 2 ∧
      LineColumn.offset? text ⟨2, 1⟩ = some 2 ∧
      (text.lineColumn 2).Precedes (text.lineColumn 5) := by
  intro text
  have first : text.Boundary 2 := ⟨"a\n".toList, "é\nb".toList, by decide, by decide⟩
  have second : text.Boundary 5 := ⟨"a\né\n".toList, ['b'], by decide, by decide⟩
  obtain ⟨-, ordered⟩ := lineColumn_locates text
  exact ⟨first, second, by decide, by decide, by decide, by decide,
    (ordered 2 5 first second).2.mpr (by decide)⟩

end AmdUnwrap
