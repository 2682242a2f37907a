import AmdUnwrap.Syntax.Reader

/-! How the nodes of a tree lie over the tokens that they were read from. -/

namespace AmdUnwrap

namespace Token

def Kind.isReal : Kind → Bool
  | .eof | .bad _ => false
  | _ => true

/-- May stand between nodes. Strings never do, since each is a node of its own, and a stretch of
a template only inside the node of the template. -/
def Kind.separates (inTemplate : Bool) : Kind → Bool
  | .string _ | .eof | .bad _ => false
  | .template _ _ => inTemplate
  | _ => true

def span (t : Token) : Span := ⟨t.start.offset, t.stop.offset⟩

def extent (tokens : List Token) : Span :=
  ⟨(tokens.head?.map (·.start.offset)).getD 0, (tokens.getLast?.map (·.stop.offset)).getD 0⟩

theorem isReal_of_separates {b : Bool} {k : Kind} (h : k.separates b = true) :
    k.isReal = true := by
  cases k <;> first | rfl | cases h

theorem separates_mono {b : Bool} {k : Kind} (h : k.separates false = true) :
    k.separates b = true := by
  cases k <;> first | rfl | cases h

theorem separates_of_isPunct {b : Bool} {t : Token} {sign : Punct} (h : t.isPunct sign = true) :
    t.kind.separates b = true := by
  have kind : t.kind = .punct sign := eq_of_beq h
  rw [kind]
  rfl

theorem separates_of_isWord {b : Bool} {t : Token} {keyword : Keyword}
    (h : t.isWord keyword = true) : t.kind.separates b = true := by
  unfold isWord at h
  split at h
  next kind =>
    rw [kind]
    rfl
  · cases h

end Token

namespace Node.Kind

def isTemplate : Kind → Bool
  | .template => true
  | _ => false

def spells : Kind → Token → Prop
  | .string raw, t => t.kind = .string raw
  | .identifier name, t | .binding name, t => ∃ keyword, t.kind = .word name keyword
  | _, _ => False

def isComposite : Kind → Bool
  | .string _ | .identifier _ | .binding _ | .elision | .call | .returnStatement
  | .function _ _ | .arrow _ _ => false
  | _ => true

def isBraced : Kind → Bool
  | .function _ _ | .arrow _ false => true
  | _ => false

end Node.Kind

/-- The nodes lie over the tokens in order, each over a stretch of them, its parts inside. -/
inductive Laid : (inTemplate : Bool) → List Token → List Node → Prop where
  | nil {b : Bool} : Laid b [] []
  | gap {b : Bool} {t : Token} {ts : List Token} {ns : List Node} :
      t.kind.separates b = true → Laid b ts ns → Laid b (t :: ts) ns
  | leaf {b : Bool} {kind : Node.Kind} {t : Token} {ts : List Token} {ns : List Node} :
      kind.spells t → Laid b ts ns → Laid b (t :: ts) (.mk kind t.span [] :: ns)
  /-- A gap of an array stands at the comma after it and takes no token. -/
  | elision {b : Bool} {t : Token} {ts : List Token} {ns : List Node} :
      Laid b (t :: ts) ns →
      Laid b (t :: ts) (.mk .elision ⟨t.start.offset, t.start.offset⟩ [] :: ns)
  | node {b : Bool} {kind : Node.Kind} {inner ts : List Token} {children ns : List Node} :
      kind.isComposite = true → inner ≠ [] → Laid kind.isTemplate inner children → Laid b ts ns →
      Laid b (inner ++ ts) (.mk kind (Token.extent inner) children :: ns)
  /-- A call ends with a token that is in none of its parts. -/
  | call {b : Bool} {front ts : List Token} {close : Token} {children ns : List Node} :
      Laid false front children → close.kind.separates false = true → Laid b ts ns →
      Laid b ((front ++ [close]) ++ ts) (.mk .call (Token.extent (front ++ [close])) children :: ns)
  | returning {b : Bool} {word : Token} {inner ts : List Token} {children ns : List Node} :
      word.isWord .returnWord = true → Laid false inner children → Laid b ts ns →
      Laid b ((word :: inner) ++ ts)
        (.mk .returnStatement (Token.extent (word :: inner)) children :: ns)
  | braced {b : Bool} {kind : Node.Kind} {front middle ts : List Token} {opening close : Token}
      {heads body ns : List Node} :
      kind.isBraced = true → Laid false front heads → opening.isPunct .lbrace = true →
      Laid false middle body → close.isPunct .rbrace = true → Laid b ts ns →
      Laid b ((front ++ opening :: middle ++ [close]) ++ ts)
        (.mk kind (Token.extent (front ++ opening :: middle ++ [close]))
          (heads ++ [.mk .functionBody ⟨opening.start.offset, close.stop.offset⟩ body]) :: ns)
  /-- The expression of an arrow function is a body with that one statement. -/
  | concise {b async : Bool} {front inner ts : List Token} {heads ns : List Node} {value : Node} :
      Laid false front heads → inner ≠ [] → Laid false inner [value] → Laid b ts ns →
      Laid b ((front ++ inner) ++ ts)
        (.mk (.arrow async true) (Token.extent (front ++ inner))
          (heads ++ [.mk .functionBody value.span [.mk .expressionStatement value.span [value]]])
          :: ns)

namespace Laid

theorem append {b : Bool} {ts us : List Token} {ns ms : List Node} (first : Laid b ts ns)
    (later : Laid b us ms) : Laid b (ts ++ us) (ns ++ ms) := by
  induction first with
  | nil => exact later
  | gap separates _ ih => exact .gap separates (ih later)
  | leaf spells _ ih => exact .leaf spells (ih later)
  | elision _ ih => exact .elision (ih later)
  | node composite some inner _ _ ih =>
      rw [List.append_assoc]
      exact .node composite some inner (ih later)
  | call front close _ _ ih =>
      rw [List.append_assoc]
      exact .call front close (ih later)
  | returning word inner _ _ ih =>
      rw [List.append_assoc]
      exact .returning word inner (ih later)
  | braced kind front opening middle close _ _ _ ih =>
      rw [List.append_assoc]
      exact .braced kind front opening middle close (ih later)
  | concise front some inner _ _ _ ih =>
      rw [List.append_assoc]
      exact .concise front some inner (ih later)

theorem weaken {b : Bool} {ts : List Token} {ns : List Node} (laid : Laid false ts ns) :
    Laid b ts ns := by
  generalize flag : false = c at laid
  induction laid with
  | nil => exact .nil
  | gap separates _ ih =>
      subst flag
      exact .gap (Token.separates_mono separates) (ih rfl)
  | leaf spells _ ih => exact .leaf spells (ih flag)
  | elision _ ih => exact .elision (ih flag)
  | node composite some inner _ _ ih => exact .node composite some inner (ih flag)
  | call front close _ _ ih => exact .call front close (ih flag)
  | returning word inner _ _ ih => exact .returning word inner (ih flag)
  | braced kind front opening middle close _ _ _ ih =>
      exact .braced kind front opening middle close (ih flag)
  | concise front some inner _ _ _ ih => exact .concise front some inner (ih flag)

theorem rename {b : Bool} {old new : Node.Kind} {span : Span} {ts : List Token}
    {children ns : List Node} (laid : Laid b ts (.mk old span children :: ns))
    (before : old.isComposite = true) (after : new.isComposite = true)
    (same : old.isTemplate = new.isTemplate) :
    Laid b ts (.mk new span children :: ns) := by
  generalize all : Node.mk old span children :: ns = nodes at laid
  induction laid with
  | nil => cases all
  | gap separates _ ih => exact .gap separates (ih all)
  | leaf spells _ _ =>
      cases all
      cases old <;> simp [Node.Kind.spells, Node.Kind.isComposite] at spells before
  | elision _ _ =>
      cases all
      cases before
  | node _ some inner rest _ _ =>
      cases all
      exact .node after some (same ▸ inner) rest
  | call _ _ _ _ _ =>
      cases all
      cases before
  | returning _ _ _ _ _ =>
      cases all
      cases before
  | braced kind _ _ _ _ _ _ _ _ =>
      cases all
      cases old <;> simp [Node.Kind.isBraced, Node.Kind.isComposite] at kind before
  | concise _ _ _ _ _ _ _ =>
      cases all
      cases before

theorem label_of_identifier {b : Bool} {name : Text} {span : Span} {ts : List Token}
    {children ns : List Node} (laid : Laid b ts (.mk (.identifier name) span children :: ns)) :
    Laid b ts (.mk (.label name) span [] :: ns) := by
  generalize all : Node.mk (.identifier name) span children :: ns = nodes at laid
  induction laid with
  | nil => cases all
  | gap separates _ ih => exact .gap separates (ih all)
  | @leaf _ _ t ts _ spells rest _ =>
      cases all
      obtain ⟨keyword, word⟩ := spells
      have alone : Laid false [t] [] :=
        .gap (word ▸ rfl) .nil
      have whole : Laid _ ([t] ++ ts) (.mk (.label name) (Token.extent [t]) [] :: ns) :=
        .node rfl (by simp) alone rest
      exact whole
  | elision _ _ => cases all
  | node composite _ _ _ _ _ =>
      cases all
      cases composite
  | call _ _ _ _ _ => cases all
  | returning _ _ _ _ _ => cases all
  | braced kind _ _ _ _ _ _ _ _ =>
      cases all
      cases kind
  | concise _ _ _ _ _ _ _ => cases all

end Laid
end AmdUnwrap
