import AmdUnwrap.Proofs.Syntax.Laid
import AmdUnwrap.Proofs.Syntax.Spelling

namespace AmdUnwrap

/-- From its start to its stop a token takes this text. -/
structure Token.Spelled (t : Token) (spelling : Text) : Prop where
  leads : t.start.Leads spelling t.stop
  solid : spelling.Solid
  sign : ∀ {sign : Punct}, t.kind = .punct sign → (spelling, sign) ∈ Punct.spellings
  word : ∀ {keyword : Keyword}, t.isWord keyword = true → Keyword.ofName? spelling = some keyword
  name : ∀ {name : Text} {keyword : Option Keyword}, t.kind = .word name keyword →
    Name.Denotes spelling name
  string : ∀ {raw : Text}, t.kind = .string raw → ∃ quote, spelling = quote :: raw ++ [quote]

namespace Token

theorem scanString_spelled {newline : Bool} {start : Place} {quote : Char} {body : Text}
    (opening : start.rest = quote :: body) (solid : isBlank quote = false)
    (real : (scanString newline start quote body).kind.isReal = true) :
    ∃ spelling, (scanString newline start quote body).Spelled spelling := by
  unfold scanString at real ⊢
  dsimp only at real ⊢
  cases found : Quoted.stringStop quote 0 (start.offset + quote.utf8Size) body with
  | error cause => simp [found, refused, Kind.isReal] at real
  | ok stop =>
      obtain ⟨passed, leads⟩ := Quoted.stringStop_leads found
      refine ⟨quote :: passed ++ [quote], ?_, .of_ends passed solid solid, by simp, nofun,
        by simp, ?_⟩
      · have start_eq : start = ⟨start.offset, quote :: body⟩ := by rw [← opening]
        rw [start_eq]
        exact .cons leads
      · intro raw same
        have width : stop.offset - quote.utf8Size - (start.offset + quote.utf8Size) =
            passed.byteLength := by
          rw [leads.offset, Text.byteLength_append]
          simp only [Text.byteLength]
          omega
        have rest : body = passed ++ ([quote] ++ stop.rest) := by
          rw [← List.append_assoc]
          exact leads.rest
        simp only [Kind.string.injEq] at same
        rw [width, rest, Text.takeBytes_byteLength] at same
        exact ⟨quote, by rw [same]⟩

theorem scanTemplate_spelled {newline : Bool} {start : Place} {mark : Char} {body : Text}
    (opening : start.rest = mark :: body) (solid : isBlank mark = false)
    (real : (scanTemplate newline start).kind.isReal = true) :
    ∃ spelling, (scanTemplate newline start).Spelled spelling := by
  obtain ⟨offset, text⟩ := start
  cases opening
  unfold scanTemplate at real ⊢
  dsimp only [Place.skip] at real ⊢
  cases found : Quoted.stretch? true 0 (offset + mark.utf8Size) body with
  | none => simp [found, refused, Kind.isReal] at real
  | some stretch =>
      obtain ⟨passed, last, leads, closed⟩ := Quoted.stretch_leads found
      exact ⟨mark :: passed ++ [last], .cons leads, .of_ends passed solid closed, by simp, nofun,
        by simp, by simp⟩

theorem scanNumber_spelled {newline : Bool} {start : Place} {c : Char} {cs : Text}
    (opening : start.rest = c :: cs) (real : (scanNumber newline start).kind.isReal = true) :
    ∃ spelling, (scanNumber newline start).Spelled spelling := by
  unfold scanNumber at real ⊢
  cases found : Number.length? start.rest with
  | none => simp [found, refused, Kind.isReal] at real
  | some count =>
      obtain ⟨clear, pos⟩ := Number.length_clear found
      refine ⟨start.rest.take count, Place.skip_leads count start, .of_all ?_ clear, by simp,
        nofun, by simp, by simp⟩
      rw [opening]
      simp
      omega

theorem scanPrivateName_spelled {newline : Bool} {start : Place} {cs : Text}
    (opening : start.rest = '#' :: cs)
    (real : (scanPrivateName newline start).kind.isReal = true) :
    ∃ spelling, (scanPrivateName newline start).Spelled spelling := by
  obtain ⟨offset, text⟩ := start
  cases opening
  unfold scanPrivateName at real ⊢
  dsimp only [Place.skip] at real ⊢
  cases found : Name.at? ⟨offset + '#'.utf8Size, cs⟩ with
  | none => simp [found, refused, Kind.isReal] at real
  | some reading =>
      obtain ⟨passed, leads, some, solid, -⟩ := Name.at_leads found
      refine ⟨'#' :: passed, .cons leads, .of_all (by simp) ?_, by simp, nofun, by simp, by simp⟩
      exact List.forall_mem_cons.mpr ⟨by decide, solid⟩

theorem scanWord_spelled {newline : Bool} {start : Place}
    (real : (scanWord newline start).kind.isReal = true) :
    ∃ spelling, (scanWord newline start).Spelled spelling := by
  unfold scanWord at real ⊢
  cases found : Name.at? start with
  | none => simp [found, refused, Kind.isReal] at real
  | some reading =>
      obtain ⟨passed, leads, some, solid, denotes, same⟩ := Name.at_leads found
      refine ⟨passed, leads, .of_all some solid, by simp, fun {keyword} word => ?_, ?_, by simp⟩
      cases escaped : reading.escaped with
      | true => simp [isWord, escaped] at word
      | false =>
          rw [same escaped]
          cases called : Keyword.ofName? reading.name with
          | none => simp [isWord, escaped, called] at word
          | some other => simpa [isWord, escaped, called] using word
      intro name keyword same
      cases same
      exact denotes

theorem solid_of_spelling {spelling : Text} {sign : Punct}
    (member : (spelling, sign) ∈ Punct.spellings) : spelling.Solid := by
  have all : Punct.spellings.all (fun p => p.1 != [] && p.1.all (!isBlank ·)) = true := by decide
  obtain ⟨some, solid⟩ := Bool.and_eq_true_iff.mp (List.all_eq_true.mp all _ member)
  apply Text.Solid.of_all (bne_iff_ne.mp some)
  intro c inside
  exact Bool.not_eq_true' _ ▸ List.all_eq_true.mp solid c inside

theorem scanPunct_spelled {newline : Bool} {start : Place}
    (real : (scanPunct newline start).kind.isReal = true) :
    ∃ spelling, (scanPunct newline start).Spelled spelling := by
  unfold scanPunct at real ⊢
  cases found : Punct.read? start.rest with
  | none => simp [found, refused, Kind.isReal] at real
  | some p =>
      obtain ⟨spelling, sign⟩ := p
      have member := List.mem_of_find?_eq_some found
      have fits := List.find?_some found
      have opening : spelling.isPrefixOf start.rest = true := (Bool.and_eq_true .. ▸ fits).1
      have leads := Place.skip_leads spelling.length start
      rw [← List.prefix_iff_eq_take.mp (List.isPrefixOf_iff_prefix.mp opening)] at leads
      refine ⟨spelling, leads, solid_of_spelling member, ?_, nofun, by simp, by simp⟩
      intro sign same
      cases same
      exact member

theorem scan_spelled {newline : Bool} {start : Place}
    (real : (scan newline start).kind.isReal = true) :
    ∃ spelling, (scan newline start).Spelled spelling := by
  unfold scan at real ⊢
  cases opening : start.rest with
  | nil => simp [opening, Kind.isReal] at real
  | cons c cs =>
      rw [opening] at real
      dsimp only at real ⊢
      by_cases quote : (c == '\x22' || c == '\x27') = true
      · rw [if_pos quote] at real ⊢
        refine scanString_spelled opening ?_ real
        rw [Bool.or_eq_true, beq_iff_eq, beq_iff_eq] at quote
        rcases quote with rfl | rfl <;> decide
      rw [if_neg quote] at real ⊢
      by_cases mark : (c == '\x60') = true
      · rw [if_pos mark] at real ⊢
        refine scanTemplate_spelled opening ?_ real
        cases eq_of_beq mark
        decide
      rw [if_neg mark] at real ⊢
      by_cases digit : (c.isDigit || c == '.' && cs.head?.any Char.isDigit) = true
      · rw [if_pos digit] at real ⊢
        exact scanNumber_spelled opening real
      rw [if_neg digit] at real ⊢
      by_cases hash : (c == '#') = true
      · rw [if_pos hash] at real ⊢
        cases eq_of_beq hash
        exact scanPrivateName_spelled opening real
      rw [if_neg hash] at real ⊢
      by_cases word : (c == '\\' || Identifier.opens c) = true
      · rw [if_pos word] at real ⊢
        exact scanWord_spelled real
      · rw [if_neg word] at real ⊢
        exact scanPunct_spelled real

theorem asTemplate_spelled {t : Token} {spelling : Text} (spelled : t.Spelled spelling)
    (brace : t.isPunct .rbrace = true) (real : t.asTemplate.kind.isReal = true) :
    ∃ spelling, t.asTemplate.Spelled spelling := by
  have member := spelled.sign (eq_of_beq brace)
  have same : spelling = ['}'] := by
    simpa [Punct.spellings] using member
  subst same
  exact scanTemplate_spelled spelled.leads.rest (by decide) real

theorem asRegex_spelled {t : Token} {spelling : Text} (spelled : t.Spelled spelling)
    (slash : t.isPunct .slash = true ∨ t.isPunct .slashAssign = true)
    (real : t.asRegex.kind.isReal = true) : ∃ spelling, t.asRegex.Spelled spelling := by
  have opening : ∃ rest, t.start.rest = '/' :: rest := by
    rcases slash with slash | slash
    · have member := spelled.sign (eq_of_beq slash)
      have same : spelling = ['/'] := by simpa [Punct.spellings] using member
      exact ⟨_, same ▸ spelled.leads.rest⟩
    · have member := spelled.sign (eq_of_beq slash)
      have same : spelling = ['/', '='] := by simpa [Punct.spellings] using member
      exact ⟨_, same ▸ spelled.leads.rest⟩
  obtain ⟨rest, opening⟩ := opening
  unfold asRegex at real ⊢
  cases found : Regex.stop (t.start.skip 1) with
  | error cause => simp [found, refused, Kind.isReal] at real
  | ok stop =>
      obtain ⟨passed, flags, leads, solid⟩ := Regex.stop_leads found
      have whole := (Place.skip_leads 1 t.start).trans leads
      rw [opening] at whole
      have mark : Text.Solid ['/'] := .of_all (by simp) (List.forall_mem_singleton.mpr rfl)
      have ending : Text.Solid ('/' :: flags) :=
        .of_all (by simp) (List.forall_mem_cons.mpr ⟨by decide, solid⟩)
      exact ⟨_, whole, mark.join passed ending, by simp, nofun, by simp, by simp⟩

end Token

theorem Trivia.skip_leads (mode : Mode) (phase : Trivia.Phase) (offset : Nat) (newline : Bool)
    (text : Text) :
    ∃ passed, (⟨offset, text⟩ : Place).Leads passed
      (Trivia.skip mode phase offset newline text).stop := by
  induction text generalizing phase offset newline with
  | nil => cases phase <;> exact ⟨[], .refl _⟩
  | cons c cs ih =>
      have onward (phase : Trivia.Phase) (newline : Bool) :
          ∃ passed, (⟨offset, c :: cs⟩ : Place).Leads passed
            (Trivia.skip mode phase (offset + c.utf8Size) newline cs).stop := by
        obtain ⟨passed, leads⟩ := ih phase (offset + c.utf8Size) newline
        exact ⟨c :: passed, .cons leads⟩
      unfold Trivia.skip
      cases phase with
      | between =>
          dsimp only
          split
          · exact onward _ _
          split
          · exact onward _ _
          split
          · exact onward _ _
          split
          · exact onward _ _
          split
          · exact onward _ _
          · exact ⟨[], .refl _⟩
      | line =>
          dsimp only
          split <;> exact onward _ _
      | opening start => exact onward _ _
      | block start =>
          dsimp only
          split <;> exact onward _ _
      | closing => exact onward _ _

namespace Token

theorem scan_start (newline : Bool) (start : Place) : (scan newline start).start = start := by
  unfold scan
  split
  · rfl
  split
  · unfold scanString
    dsimp only
    split <;> rfl
  split
  · unfold scanTemplate
    dsimp only
    split <;> rfl
  split
  · unfold scanNumber
    split <;> rfl
  split
  · unfold scanPrivateName
    split <;> rfl
  split
  · unfold scanWord
    split <;> rfl
  · unfold scanPunct
    split <;> rfl

theorem afterGap_spelled {gap : Trivia.Gap} (real : (afterGap gap).kind.isReal = true) :
    (afterGap gap).start = gap.stop ∧ ∃ spelling, (afterGap gap).Spelled spelling := by
  unfold afterGap at real ⊢
  split at real
  · cases real
  · exact ⟨scan_start _ _, scan_spelled real⟩

def Follows (p : Place) (t : Token) : Prop :=
  t.kind.isReal = true → ∃ gap spelling, p.Leads gap t.start ∧ t.Spelled spelling

theorem next_follows (mode : Mode) (p : Place) : Follows p (next mode p) := by
  intro real
  obtain ⟨start, spelling, spelled⟩ := afterGap_spelled real
  obtain ⟨gap, leads⟩ := Trivia.skip_leads mode .between p.offset false p.rest
  exact ⟨gap, spelling, start ▸ leads, spelled⟩

theorem first_follows (mode : Mode) (text : Text) : Follows ⟨0, text⟩ (first mode text) := by
  intro real
  obtain ⟨start, spelling, spelled⟩ := afterGap_spelled real
  obtain ⟨gap, leads⟩ := Trivia.skip_leads mode _ 0 true text
  exact ⟨gap, spelling, start ▸ leads, spelled⟩

end Token

/-- From one place to another the text holds these tokens. -/
inductive Runs : Place → List Token → Place → Prop where
  | nil {p : Place} : Runs p [] p
  | cons {p q : Place} {t : Token} {ts : List Token} {gap spelling : Text} :
      p.Leads gap t.start → t.Spelled spelling → Runs t.stop ts q → Runs p (t :: ts) q

namespace Runs

theorem split {p q : Place} {ts us : List Token} (runs : Runs p (ts ++ us) q) :
    ∃ m, Runs p ts m ∧ Runs m us q := by
  induction ts generalizing p with
  | nil => exact ⟨p, .nil, runs⟩
  | cons t ts ih =>
      cases runs with
      | cons leads spelled rest =>
          obtain ⟨m, first, later⟩ := ih rest
          exact ⟨m, .cons leads spelled first, later⟩

theorem leads {p q : Place} {ts : List Token} (runs : Runs p ts q) :
    ∃ passed, p.Leads passed q := by
  induction runs with
  | nil => exact ⟨[], .refl _⟩
  | cons leads spelled _ ih =>
      obtain ⟨passed, later⟩ := ih
      exact ⟨_, leads.trans (spelled.leads.trans later)⟩

theorem le {p q : Place} {ts : List Token} (runs : Runs p ts q) : p.offset ≤ q.offset := by
  obtain ⟨passed, leads⟩ := runs.leads
  exact leads.le

theorem restart {p q : Place} {t : Token} {ts : List Token} (runs : Runs p (t :: ts) q) :
    ∃ gap, p.Leads gap t.start ∧ Runs t.start (t :: ts) q := by
  cases runs with
  | cons leads spelled rest => exact ⟨_, leads, .cons (.refl _) spelled rest⟩

theorem solid {q : Place} {t : Token} {ts : List Token} (runs : Runs t.start (t :: ts) q) :
    ∃ part, t.start.Leads part q ∧ part.Solid := by
  induction ts generalizing t with
  | nil =>
      cases runs with
      | cons _ spelled rest =>
          cases rest
          exact ⟨_, spelled.leads, spelled.solid⟩
  | cons u us ih =>
      cases runs with
      | cons _ spelled rest =>
          obtain ⟨gap, between, rest⟩ := rest.restart
          obtain ⟨part, leads, solid⟩ := ih rest
          exact ⟨_, spelled.leads.trans (between.trans leads), spelled.solid.join gap solid⟩

theorem extent {p q : Place} {t : Token} {ts : List Token} (runs : Runs p (t :: ts) q) :
    Token.extent (t :: ts) = ⟨t.start.offset, q.offset⟩ := by
  induction ts generalizing p t with
  | nil =>
      cases runs with
      | cons _ _ rest =>
          cases rest
          rfl
  | cons u us ih =>
      cases runs with
      | cons _ _ rest =>
          have last := congrArg Span.stop (ih rest)
          simp only [Token.extent, List.getLast?_cons_cons, List.head?_cons] at last ⊢
          rw [last]
          rfl

end Runs

end AmdUnwrap
