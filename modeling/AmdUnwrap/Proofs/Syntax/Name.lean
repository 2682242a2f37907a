import AmdUnwrap.Proofs.Text.Place
import AmdUnwrap.Syntax.Token.Name

namespace AmdUnwrap

theorem take_length_takeWhile (p : Char → Bool) (text : Text) :
    text.take (text.takeWhile p).length = text.takeWhile p :=
  (List.prefix_iff_eq_take.mp (List.takeWhile_prefix p)).symm

namespace Escape

def Codes (digits : Text) (c : Char) : Prop :=
  digits.all isHex = true ∧ (hexValue digits).isValidChar ∧ c = Char.ofNat (hexValue digits)

/-- What follows the backslash of an escape in a name, and the character that it stands for. -/
inductive Means : Text → Char → Prop where
  | digits {digits : Text} {c : Char} : digits.length = 4 → Codes digits c →
      Means ('u' :: digits) c
  | braced {digits : Text} {c : Char} : digits ≠ [] → Codes digits c →
      Means ('u' :: '{' :: digits ++ ['}']) c

theorem nameChar_means {text : Text} {c : Char} {count : Nat}
    (found : nameChar? text = some (c, count)) : Means (text.take count) c := by
  unfold nameChar? at found
  split at found
  next body =>
    cases point : codePoint? body with
    | none => simp [point] at found
    | some p =>
        obtain ⟨code, taken⟩ := p
        simp only [point, Option.ite_none_right_eq_some, Option.some.injEq, Prod.mk.injEq] at found
        obtain ⟨valid, rfl, rfl⟩ := found
        unfold codePoint? at point
        split at point
        next inner =>
          simp only [Option.ite_none_right_eq_some, Option.some.injEq, Prod.mk.injEq] at point
          obtain ⟨⟨some, -, brace⟩, rfl, rfl⟩ := point
          rw [List.head?_drop] at brace
          rw [List.take_succ_cons, List.take_succ_cons, List.take_add_one, brace,
            take_length_takeWhile]
          exact .braced some ⟨List.all_takeWhile, valid, rfl⟩
        · simp only [Option.ite_none_right_eq_some, Option.some.injEq, Prod.mk.injEq] at point
          obtain ⟨⟨four, hex⟩, rfl, rfl⟩ := point
          rw [List.take_succ_cons]
          exact .digits four ⟨hex, valid, rfl⟩
  · cases found

theorem digits_eq {digits digits' rest rest' : Text} (hex : digits.all isHex = true)
    (hex' : digits'.all isHex = true) (same : digits ++ '}' :: rest = digits' ++ '}' :: rest') :
    digits = digits' ∧ rest = rest' := by
  have ends {digits rest : Text} (hex : digits.all isHex = true) :
      (digits ++ '}' :: rest).takeWhile isHex = digits := by
    have all : ∀ c ∈ digits, isHex c = true := List.all_eq_true.mp hex
    rw [List.takeWhile_append_of_pos all]
    simp [show isHex '}' = false from rfl]
  have front : digits = digits' := by
    rw [← ends hex, same, ends hex']
  subst front
  exact ⟨rfl, (List.cons.inj (List.append_cancel_left same)).2⟩

theorem Means.unique {sequence sequence' rest rest' : Text} {c c' : Char}
    (means : Means sequence c) (means' : Means sequence' c')
    (same : sequence ++ rest = sequence' ++ rest') : c = c' ∧ rest = rest' := by
  have brace {digits after : Text} {c : Char} (codes : Codes digits c) (four : digits.length = 4)
      (opens : digits ++ rest = '{' :: after ∨ digits ++ rest' = '{' :: after) : False := by
    obtain ⟨d, ds, rfl⟩ := List.exists_cons_of_length_eq_add_one four
    have hex := (List.all_eq_true.mp codes.1) d List.mem_cons_self
    rcases opens with opens | opens <;> cases opens <;> cases hex
  cases means with
  | @digits digits _ four codes =>
      cases means' with
      | @digits digits' _ four' codes' =>
          obtain ⟨front, back⟩ := List.append_inj (List.cons.inj same).2 (four.trans four'.symm)
          subst front
          exact ⟨codes.2.2.trans codes'.2.2.symm, back⟩
      | braced some' codes' => exact (brace codes four (.inl (List.cons.inj same).2)).elim
  | @braced digits _ some codes =>
      cases means' with
      | digits four' codes' => exact (brace codes' four' (.inr (List.cons.inj same).2.symm)).elim
      | @braced digits' _ some' codes' =>
          have same : digits ++ '}' :: rest = digits' ++ '}' :: rest' := by simpa using same
          obtain ⟨front, back⟩ := digits_eq codes.1 codes'.1 same
          subst front
          exact ⟨codes.2.2.trans codes'.2.2.symm, back⟩

end Escape

/-- A spelling and the name that it denotes. -/
inductive Name.Denotes : Text → Text → Prop where
  | nil : Denotes [] []
  | plain {c : Char} {spelling name : Text} : c ≠ '\\' → Denotes spelling name →
      Denotes (c :: spelling) (c :: name)
  | escape {sequence spelling name : Text} {c : Char} : Escape.Means sequence c →
      Denotes spelling name → Denotes ('\\' :: (sequence ++ spelling)) (c :: name)

theorem Name.Denotes.unique {spelling name name' : Text} (denotes : Denotes spelling name)
    (denotes' : Denotes spelling name') : name = name' := by
  induction denotes generalizing name' with
  | nil =>
      cases denotes'
      rfl
  | plain other _ ih =>
      cases denotes' with
      | plain _ rest => rw [ih rest]
      | escape _ _ => exact absurd rfl other
  | @escape sequence spelling name c means _ ih =>
      generalize all : '\\' :: (sequence ++ spelling) = whole at denotes'
      cases denotes' with
      | nil => cases all
      | plain other _ =>
          cases all
          exact absurd rfl other
      | escape means' rest =>
          obtain ⟨rfl, rfl⟩ := means.unique means' (List.cons.inj all).2
          rw [ih rest]

end AmdUnwrap
