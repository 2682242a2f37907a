import AmdUnwrap.Proofs.Syntax.Name
import AmdUnwrap.Syntax.Token.Scan

namespace AmdUnwrap

theorem isBlank_of_opens {c : Char} (opens : Identifier.opens c = true) : isBlank c = false :=
  isBlank_of_continues (Identifier.continues_of_opens opens)

theorem isBlank_of_graphic {c : Char} (low : '!' ≤ c) (high : c ≤ '~') : isBlank c = false := by
  have low : 0x21 ≤ c.toNat := low
  have high : c.toNat ≤ 0x7e := high
  simp [isBlank, blankRanges]
  omega

theorem isBlank_of_between {c a b : Char} (between : (a ≤ c && c ≤ b) = true) (low : '!' ≤ a)
    (high : b ≤ '~') : isBlank c = false := by
  rw [Bool.and_eq_true, decide_eq_true_eq, decide_eq_true_eq] at between
  exact isBlank_of_graphic (Char.le_trans low between.1) (Char.le_trans between.2 high)

theorem isBlank_of_isDigit {c : Char} (digit : c.isDigit = true) : isBlank c = false :=
  isBlank_of_between (a := '0') (b := '9') digit (by decide) (by decide)

theorem isBlank_of_isHex {c : Char} (hex : Escape.isHex c = true) : isBlank c = false := by
  unfold Escape.isHex Escape.hexDigit? at hex
  split at hex
  next digit => exact isBlank_of_isDigit digit
  split at hex
  next small => exact isBlank_of_between small (by decide) (by decide)
  split at hex
  next capital => exact isBlank_of_between capital (by decide) (by decide)
  · cases hex

namespace Escape

theorem codePoint_solid {text : Text} {code count : Nat}
    (found : codePoint? text = some (code, count)) : ∀ c ∈ text.take count, isBlank c = false := by
  unfold codePoint? at found
  split at found
  next body =>
    dsimp only at found
    split at found
    next closed =>
      cases found
      obtain ⟨-, -, brace⟩ := closed
      intro c member
      rw [List.take_succ_cons, List.mem_cons] at member
      rcases member with rfl | member
      · decide
      · rw [List.head?_drop] at brace
        rw [List.take_add_one, brace, take_length_takeWhile, List.mem_append] at member
        rcases member with digit | last
        · exact isBlank_of_isHex (List.all_eq_true.mp List.all_takeWhile c digit)
        · cases List.mem_singleton.mp last
          decide
    · cases found
  · dsimp only at found
    split at found
    next hex =>
      cases found
      intro c member
      exact isBlank_of_isHex (List.all_eq_true.mp hex.2 c member)
    · cases found

theorem nameChar_solid {text : Text} {meant : Char} {count : Nat}
    (found : nameChar? text = some (meant, count)) : ∀ c ∈ text.take count, isBlank c = false := by
  unfold nameChar? at found
  split at found
  next body =>
    cases point : codePoint? body with
    | none => simp [point] at found
    | some p =>
        obtain ⟨code, taken⟩ := p
        simp [point] at found
        obtain ⟨-, -, rfl⟩ := found
        intro c member
        rw [List.take_succ_cons, List.mem_cons] at member
        rcases member with rfl | member
        · decide
        · exact codePoint_solid point c member
  · cases found

end Escape

theorem Name.read_leads {started : Bool} {pending offset : Nat} {text : Text} {r : Name.Reading}
    (found : Name.read? started pending offset text = some r) :
    ∃ spelling, (⟨offset, text⟩ : Place).Leads (text.take pending ++ spelling) r.stop ∧
      (∀ c ∈ spelling, isBlank c = false) ∧ Name.Denotes spelling r.name ∧
      (r.escaped = false → spelling = r.name) := by
  induction text generalizing started pending offset r with
  | nil =>
      cases pending <;> cases found <;>
        exact ⟨[], .refl _, by simp, .nil, fun _ => rfl⟩
  | cons c cs ih =>
      cases pending with
      | succ pending =>
          obtain ⟨spelling, leads, read⟩ := ih found
          exact ⟨spelling, .cons leads, read⟩
      | zero =>
          unfold Name.read? at found
          split at found
          next slash =>
            cases meaning : Escape.nameChar? cs with
            | none => simp [meaning] at found
            | some p =>
                obtain ⟨meant, count⟩ := p
                simp only [meaning] at found
                split at found
                · obtain ⟨tail, later, rfl⟩ := Option.map_eq_some_iff.mp found
                  obtain ⟨spelling, leads, solid, denotes, -⟩ := ih later
                  cases eq_of_beq slash
                  refine ⟨'\\' :: (cs.take count ++ spelling), .cons leads, ?_,
                    .escape (Escape.nameChar_means meaning) denotes, nofun⟩
                  rw [List.forall_mem_cons, List.forall_mem_append]
                  exact ⟨by decide, Escape.nameChar_solid meaning, solid⟩
                · cases found
          next other =>
            split at found
            next admitted =>
              obtain ⟨tail, later, rfl⟩ := Option.map_eq_some_iff.mp found
              obtain ⟨spelling, leads, solid, denotes, same⟩ := ih later
              refine ⟨c :: spelling, .cons leads, List.forall_mem_cons.mpr ⟨?_, solid⟩,
                .plain (by simpa using other) denotes, fun plain => congrArg (c :: ·) (same plain)⟩
              cases started with
              | true => exact isBlank_of_continues admitted
              | false => exact isBlank_of_opens admitted
            · cases found
              exact ⟨[], .refl _, by simp, .nil, fun _ => rfl⟩

theorem Name.at_leads {p : Place} {r : Name.Reading} (found : Name.at? p = some r) :
    ∃ spelling, p.Leads spelling r.stop ∧ spelling ≠ [] ∧ (∀ c ∈ spelling, isBlank c = false) ∧
      Name.Denotes spelling r.name ∧ (r.escaped = false → spelling = r.name) := by
  obtain ⟨found, named⟩ := Option.filter_eq_some_iff.mp found
  obtain ⟨spelling, leads, solid, denotes, same⟩ := Name.read_leads found
  refine ⟨spelling, leads, ?_, solid, denotes, same⟩
  rintro rfl
  rw [denotes.unique .nil] at named
  cases named

theorem Quoted.stringStop_leads {quote : Char} {pending offset : Nat} {text : Text} {stop : Place}
    (found : Quoted.stringStop quote pending offset text = .ok stop) :
    ∃ passed, (⟨offset, text⟩ : Place).Leads (passed ++ [quote]) stop := by
  induction text generalizing pending offset with
  | nil => cases pending <;> cases found
  | cons c cs ih =>
      cases pending with
      | succ pending =>
          obtain ⟨passed, leads⟩ := ih found
          exact ⟨c :: passed, .cons leads⟩
      | zero =>
          unfold Quoted.stringStop at found
          split at found
          next closed =>
            cases found
            cases eq_of_beq closed
            exact ⟨[], .cons (.refl _)⟩
          split at found
          · cases found
          split at found
          · cases escape : Escape.stringLength? cs with
            | none => simp [escape] at found
            | some count =>
                rw [escape] at found
                obtain ⟨passed, leads⟩ := ih found
                exact ⟨c :: passed, .cons leads⟩
          · obtain ⟨passed, leads⟩ := ih found
            exact ⟨c :: passed, .cons leads⟩

theorem Quoted.stretch_leads {wellEscaped : Bool} {pending offset : Nat} {text : Text}
    {stretch : Quoted.Stretch}
    (found : Quoted.stretch? wellEscaped pending offset text = some stretch) :
    ∃ passed last, (⟨offset, text⟩ : Place).Leads (passed ++ [last]) stretch.stop ∧
      isBlank last = false := by
  induction text generalizing wellEscaped pending offset with
  | nil => cases pending <;> cases found
  | cons c cs ih =>
      cases pending with
      | succ pending =>
          obtain ⟨passed, last, leads, solid⟩ := ih found
          exact ⟨c :: passed, last, .cons leads, solid⟩
      | zero =>
          unfold Quoted.stretch? at found
          split at found
          next closed =>
            cases found
            cases eq_of_beq closed
            exact ⟨[], _, .cons (.refl _), by decide⟩
          split at found
          next substitution =>
            cases found
            rw [Bool.and_eq_true, beq_iff_eq, beq_iff_eq] at substitution
            obtain ⟨rfl, brace⟩ := substitution
            obtain ⟨rest, rfl⟩ := List.head?_eq_some_iff.mp brace
            exact ⟨['$'], '{', Place.skip_leads 2 ⟨offset, '$' :: '{' :: rest⟩, by decide⟩
          split at found
          · cases escape : Escape.stringLength? cs with
            | none =>
                rw [escape] at found
                obtain ⟨passed, last, leads, solid⟩ := ih found
                exact ⟨c :: passed, last, .cons leads, solid⟩
            | some count =>
                rw [escape] at found
                obtain ⟨passed, last, leads, solid⟩ := ih found
                exact ⟨c :: passed, last, .cons leads, solid⟩
          · obtain ⟨passed, last, leads, solid⟩ := ih found
            exact ⟨c :: passed, last, .cons leads, solid⟩

theorem Regex.bodyStop_leads {bracketed escaped : Bool} {offset : Nat} {text : Text}
    {stop : Place} (found : Regex.bodyStop? bracketed escaped offset text = some stop) :
    ∃ passed, (⟨offset, text⟩ : Place).Leads (passed ++ ['/']) stop := by
  induction text generalizing bracketed escaped offset with
  | nil => cases found
  | cons c cs ih =>
      have onward {bracketed escaped : Bool}
          (found : Regex.bodyStop? bracketed escaped (offset + c.utf8Size) cs = some stop) :
          ∃ passed, (⟨offset, c :: cs⟩ : Place).Leads (passed ++ ['/']) stop := by
        obtain ⟨passed, leads⟩ := ih found
        exact ⟨c :: passed, .cons leads⟩
      unfold Regex.bodyStop? at found
      dsimp only at found
      split at found
      · cases found
      split at found
      · exact onward found
      split at found
      · exact onward found
      split at found
      · exact onward found
      split at found
      · exact onward found
      split at found
      next closed =>
        cases found
        rw [Bool.and_eq_true, beq_iff_eq] at closed
        obtain ⟨rfl, -⟩ := closed
        exact ⟨[], .cons (.refl _)⟩
      · exact onward found

theorem Regex.stop_leads {inner stop : Place} (found : Regex.stop inner = .ok stop) :
    ∃ passed flags, inner.Leads (passed ++ '/' :: flags) stop ∧
      ∀ c ∈ flags, isBlank c = false := by
  unfold Regex.stop at found
  cases body : Regex.bodyStop? false false inner.offset inner.rest with
  | none => simp [body] at found
  | some tail =>
      simp only [body] at found
      split at found
      · cases found
        obtain ⟨passed, leads⟩ := Regex.bodyStop_leads body
        have flags := Place.skip_leads (tail.rest.takeWhile Identifier.continues).length tail
        rw [take_length_takeWhile] at flags
        refine ⟨passed, tail.rest.takeWhile Identifier.continues, ?_, ?_⟩
        · have whole := leads.trans flags
          rwa [List.append_assoc] at whole
        · intro c member
          exact isBlank_of_continues (List.all_eq_true.mp List.all_takeWhile c member)
      · cases found

/-- The opening characters are no white space, this many of them. -/
def Text.Clear (text : Text) (count : Nat) : Prop := ∀ c ∈ text.take count, isBlank c = false

namespace Text.Clear

theorem zero (text : Text) : text.Clear 0 := by
  intro c member
  cases member

theorem add {text : Text} {m n : Nat} (first : text.Clear m) (later : Clear (text.drop m) n) :
    text.Clear (m + n) := by
  intro c member
  rw [List.take_add, List.mem_append] at member
  rcases member with member | member
  · exact first c member
  · exact later c member

theorem cons {c : Char} {text : Text} {n : Nat} (head : isBlank c = false) (later : text.Clear n) :
    Clear (c :: text) (n + 1) := by
  intro e member
  rw [List.take_succ_cons, List.mem_cons] at member
  rcases member with rfl | member
  · exact head
  · exact later e member

theorem takeWhile {p : Char → Bool} (solid : ∀ c, p c = true → isBlank c = false) (text : Text) :
    text.Clear (text.takeWhile p).length := by
  intro c member
  rw [take_length_takeWhile] at member
  exact solid c (List.all_eq_true.mp List.all_takeWhile c member)

theorem run {isDigit : Char → Bool} (solid : ∀ c, isDigit c = true → isBlank c = false)
    (text : Text) : text.Clear (Number.run isDigit text).length := by
  apply takeWhile
  intro c member
  rw [Bool.or_eq_true, beq_iff_eq] at member
  rcases member with digit | rfl
  · exact solid c digit
  · decide

end Text.Clear

namespace Number

theorem run_pos {isDigit : Char → Bool} {text : Text}
    (separated : wellSeparated (run isDigit text) = true) : 0 < (run isDigit text).length := by
  rw [List.length_pos_iff]
  intro empty
  rw [empty] at separated
  cases separated

theorem fraction_clear {text : Text} {n : Nat} (found : fraction? text = some n) :
    text.Clear n := by
  unfold fraction? at found
  split at found
  · cases found
    exact .zero text
  · split at found
    · cases found
      exact .run (fun c => isBlank_of_isDigit) text
    · cases found

theorem signed_clear {text : Text} {n : Nat} (found : signed? text = some n) : text.Clear n := by
  unfold signed? at found
  dsimp only at found
  split at found
  · cases found
    exact .run (fun c => isBlank_of_isDigit) text
  · cases found

theorem exponent_clear {text : Text} {n : Nat} (found : exponent? text = some n) :
    text.Clear n := by
  have two {a b : Char} {rest : Text} (first : isBlank a = false) (second : isBlank b = false)
      (found : (signed? rest).map (· + 2) = some n) : Text.Clear (a :: b :: rest) n := by
    obtain ⟨m, digits, rfl⟩ := Option.map_eq_some_iff.mp found
    exact .cons first (.cons second (signed_clear digits))
  have one {a : Char} {rest : Text} (first : isBlank a = false)
      (found : (signed? rest).map (· + 1) = some n) : Text.Clear (a :: rest) n := by
    obtain ⟨m, digits, rfl⟩ := Option.map_eq_some_iff.mp found
    exact .cons first (signed_clear digits)
  unfold exponent? at found
  split at found
  · exact two (by decide) (by decide) found
  · exact two (by decide) (by decide) found
  · exact two (by decide) (by decide) found
  · exact two (by decide) (by decide) found
  · exact one (by decide) found
  · exact one (by decide) found
  · cases found
    exact .zero text

theorem tail_pos {text : Text} {n : Nat} (found : tail? ('.' :: text) = some n) : 0 < n := by
  obtain ⟨places, -, found⟩ := Option.bind_eq_some_iff.mp found
  obtain ⟨power, -, found⟩ := Option.bind_eq_some_iff.mp found
  cases found
  omega

theorem tail_clear {text : Text} {n : Nat} (found : tail? text = some n) : text.Clear n := by
  unfold tail? at found
  split at found
  next rest =>
    obtain ⟨places, fraction, found⟩ := Option.bind_eq_some_iff.mp found
    obtain ⟨power, exponent, found⟩ := Option.bind_eq_some_iff.mp found
    cases found
    rw [Nat.add_assoc, Nat.add_comm 1]
    exact .cons (by decide) ((fraction_clear fraction).add (exponent_clear exponent))
  · exact exponent_clear found

theorem decimal_clear {text : Text} {n : Nat} (found : decimal? text = some n) :
    text.Clear n ∧ 0 < n := by
  have digits : text.Clear (run Char.isDigit text).length := .run (fun c => isBlank_of_isDigit) text
  unfold decimal? at found
  dsimp only at found
  split at found
  next separated =>
    have pos := run_pos separated
    split at found
    next suffix same =>
      cases found
      refine ⟨digits.add ?_, by omega⟩
      rw [same]
      exact .cons (by decide) (.zero suffix)
    · obtain ⟨m, tail, rfl⟩ := Option.map_eq_some_iff.mp found
      exact ⟨digits.add (tail_clear tail), by omega⟩
  · cases found

theorem zeroLed_clear {text : Text} {n : Nat} (found : zeroLed? ('0' :: text) = some n) :
    Text.Clear ('0' :: text) n ∧ 0 < n := by
  have digits : Text.Clear ('0' :: text) (('0' :: text).takeWhile Char.isDigit).length :=
    .takeWhile (fun c => isBlank_of_isDigit) _
  have pos : 0 < (('0' :: text).takeWhile Char.isDigit).length := by simp [Char.isDigit]
  unfold zeroLed? at found
  dsimp only at found
  split at found
  · cases found
    exact ⟨digits, pos⟩
  · obtain ⟨m, tail, rfl⟩ := Option.map_eq_some_iff.mp found
    exact ⟨digits.add (tail_clear tail), by omega⟩

theorem radix_clear {isDigit : Char → Bool} (solid : ∀ c, isDigit c = true → isBlank c = false)
    {a b : Char} {text : Text} {n : Nat} (first : isBlank a = false) (second : isBlank b = false)
    (found : radix? isDigit text = some n) : Text.Clear (a :: b :: text) n ∧ 0 < n := by
  unfold radix? at found
  dsimp only at found
  split at found
  · cases found
    rw [Nat.add_assoc, Nat.add_comm 2]
    refine ⟨.cons first (.cons second ((Text.Clear.run solid text).add ?_)), by omega⟩
    split
    next suffix =>
      obtain ⟨rest, same⟩ := List.head?_eq_some_iff.mp (eq_of_beq suffix)
      rw [same]
      exact .cons (by decide) (.zero rest)
    · exact .zero _
  · cases found

theorem literal_clear {text : Text} {n : Nat} (found : literal? text = some n) :
    text.Clear n ∧ 0 < n := by
  have octal (c : Char) (digit : ('0' ≤ c && c ≤ '7') = true) : isBlank c = false :=
    isBlank_of_between digit (by decide) (by decide)
  have binary (c : Char) (digit : (c == '0' || c == '1') = true) : isBlank c = false := by
    rw [Bool.or_eq_true, beq_iff_eq, beq_iff_eq] at digit
    rcases digit with rfl | rfl <;> decide
  unfold literal? at found
  split at found
  · exact radix_clear (fun c => isBlank_of_isHex) (by decide) (by decide) found
  · exact radix_clear (fun c => isBlank_of_isHex) (by decide) (by decide) found
  · exact radix_clear octal (by decide) (by decide) found
  · exact radix_clear octal (by decide) (by decide) found
  · exact radix_clear binary (by decide) (by decide) found
  · exact radix_clear binary (by decide) (by decide) found
  · split at found
    · exact zeroLed_clear found
    split at found
    · cases found
    · exact decimal_clear found
  · exact ⟨tail_clear found, tail_pos found⟩
  · exact decimal_clear found

theorem length_clear {text : Text} {n : Nat} (found : length? text = some n) :
    text.Clear n ∧ 0 < n :=
  literal_clear (Option.filter_eq_some_iff.mp found).1

end Number

end AmdUnwrap
