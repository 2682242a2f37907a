import AmdUnwrap.Proofs.Coverage
import AmdUnwrap.Proofs.Seam

namespace AmdUnwrap
open Amd

namespace Node

def isLiteral (n : Node) : Bool :=
  match n.kind with
  | .template | .string _ => true
  | _ => false

theorem isLiteral_iff {n : Node} :
    n.isLiteral = true ↔ n.kind = .template ∨ ∃ raw, n.kind = .string raw := by
  unfold isLiteral
  cases n.kind <;> simp

theorem preorder_eq (n : Node) : n.preorder = n :: n.children.flatMap preorder := by
  obtain ⟨kind, span, children⟩ := n
  rw [preorder, preorderAll_eq_flatMap]
  rfl

theorem mem_preorder {root n : Node} : n ∈ root.preorder ↔ ∃ path, Reaches root path n := by
  induction root using Node.induction with
  | step root ih =>
      rw [preorder_eq, List.mem_cons, List.mem_flatMap]
      constructor
      · rintro (rfl | ⟨m, member, inside⟩)
        · exact ⟨[], .top⟩
        · obtain ⟨path, reaches⟩ := (ih m member).mp inside
          exact ⟨_, (Reaches.top.child member).trans reaches⟩
      · rintro ⟨path, reaches⟩
        rcases reaches.down with rfl | ⟨m, member, below, lower⟩
        · exact .inl rfl
        · exact .inr ⟨m, member, (ih m member).mpr ⟨below, lower⟩⟩

end Node

theorem Text.Solid.line_inside {before after : Text} (solid : Solid (before ++ '\n' :: after)) :
    after ≠ [] := by
  rintro rfl
  obtain ⟨-, ⟨c, last, closes⟩⟩ := solid
  rw [List.getLast?_concat] at last
  cases last
  cases closes

namespace Source

theorem shift_held (s : Source) (dedent offset : Nat) {text : Text}
    (held : ∀ before after, text = before ++ '\n' :: after →
      s.inLiteral (offset + before.byteLength + 1) = true) :
    s.shift dedent 0 offset text = text := by
  induction text generalizing offset with
  | nil => rfl
  | cons c cs ih =>
      have rest : s.shift dedent 0 (offset + c.utf8Size) cs = cs := by
        apply ih
        intro before after same
        have inside := held (c :: before) after (by rw [same, List.cons_append])
        rwa [Text.byteLength, ← Nat.add_assoc] at inside
      by_cases line : c = '\n'
      · subst line
        have first : s.inLiteral (offset + '\n'.utf8Size) = true := held [] cs rfl
        simp [shift, first, rest]
      · simp [shift, line, rest]

end Source

theorem Node.Stands.isVerbatimLiteral {text part : Text} {n : Node} (stands : n.Stands text)
    (literal : n.isLiteral = true) (slice : text.slice n.span = part) (solid : part.Solid)
    (lines : '\n' ∈ part) : AmdUnwrap.isVerbatimLiteral n = true := by
  unfold AmdUnwrap.isVerbatimLiteral
  rcases n.isLiteral_iff.mp literal with template | ⟨raw, string⟩
  · rw [template]
  · rw [string]
    obtain ⟨quote, spelled⟩ := stands.quoted raw string
    rw [slice] at spelled
    have visible : quote ≠ '\n' := by
      rintro rfl
      obtain ⟨⟨c, first, opens⟩, -⟩ := solid
      rw [spelled] at first
      cases first
      cases opens
    rw [spelled] at lines
    simpa [Ne.symm visible] using lines

theorem Node.Stands.literal_filled {text : Text} {n : Node} (stands : n.Stands text)
    (literal : n.isLiteral = true) : n.span.start < n.span.stop := by
  apply stands.filled
  rcases n.isLiteral_iff.mp literal with template | ⟨raw, string⟩
  · rw [template]
    rfl
  · rw [string]
    rfl

/-- A literal is copied as it is, however far the text around it moves. -/
theorem Node.Stands.copy_literal {s : Source} {n : Node} (stands : n.Stands s.text)
    (literal : n.isLiteral = true)
    (protects : AmdUnwrap.isVerbatimLiteral n = true → n.span ∈ s.verbatim) (dedent : Nat) :
    s.copy dedent n.span = s.slice n.span := by
  obtain ⟨before, part, after, whole, span, solid⟩ :=
    stands.solid (stands.literal_filled literal)
  have slice : s.slice n.span = part := by
    rw [span]
    exact Text.slice_eq whole rfl rfl
  rw [Source.copy, slice]
  by_cases lines : '\n' ∈ part
  · have inside := protects (stands.isVerbatimLiteral literal slice solid lines)
    apply s.shift_held
    intro first rest same
    rw [same] at solid span
    have pos := Text.byteLength_pos solid.line_inside
    rw [Source.inLiteral, List.any_eq_true]
    refine ⟨n.span, inside, ?_⟩
    rw [Text.byteLength_append] at span
    have one : Text.byteLength ('\n' :: rest) = 1 + Text.byteLength rest := rfl
    rw [one] at span
    simp only [Span.surrounds, span, Bool.and_eq_true, decide_eq_true_eq]
    omega
  · exact s.shift_line dedent _ lines

end AmdUnwrap
