import AmdUnwrap.Proofs.Replacement

namespace AmdUnwrap
open Amd

namespace Source

theorem shift_line (s : Source) (dedent offset : Nat) {text : Text} (line : '\n' ∉ text) :
    s.shift dedent 0 offset text = text := by
  induction text generalizing offset with
  | nil => rfl
  | cons c cs ih =>
      rw [List.mem_cons, not_or] at line
      have stays : c ≠ '\n' := Ne.symm line.1
      simp [shift, stays, ih _ line.2]

theorem shift_after (s : Source) (dedent offset : Nat) (a b : Text) :
    s.shift dedent 0 offset a <+: s.shift dedent 0 offset (a ++ b) := by
  obtain ⟨left, parts⟩ := s.shift_append dedent 0 offset a b
  rw [parts]
  apply List.prefix_append

end Source

namespace Splices

variable {s : Source} {dedent offset : Nat} {edits first later : List Edit} {part head new : Text}

theorem bounds {move : Nat → Text → Text} (splices : Splices move offset edits part new) :
    ∀ edit ∈ edits, offset ≤ edit.span.start ∧ edit.span.start < edit.span.stop ∧
      edit.span.stop ≤ offset + part.byteLength := by
  induction splices with
  | rest => nofun
  | edit span some _ ih =>
      have filled := Text.byteLength_pos some
      have width (a b c : Text) : Text.byteLength (a ++ (b ++ c)) =
          a.byteLength + (b.byteLength + c.byteLength) := by
        rw [Text.byteLength_append, Text.byteLength_append]
      rw [List.forall_mem_cons, width, span]
      refine ⟨⟨Nat.le_add_right _ _, Nat.lt_add_of_pos_right filled, by dsimp only; omega⟩, ?_⟩
      intro edit member
      have bounds := ih edit member
      rw [span] at bounds
      dsimp only at bounds
      omega

theorem parts_eq {kept old rest front middle after : Text} {offset : Nat}
    (whole : kept ++ (old ++ rest) = front ++ (middle ++ after))
    (same : (⟨offset + kept.byteLength, offset + kept.byteLength + old.byteLength⟩ : Span) =
      ⟨offset + front.byteLength, offset + front.byteLength + middle.byteLength⟩) :
    kept = front ∧ old = middle ∧ rest = after := by
  rw [Span.mk.injEq] at same
  obtain ⟨k, front_eq, inner⟩ := Text.part_rest whole (by omega)
  have none : k = [] := by
    apply Text.byteLength_eq_zero.mp
    rw [front_eq, Text.byteLength_append] at same
    omega
  subst none
  rw [List.append_nil] at front_eq
  rw [List.nil_append] at inner
  obtain ⟨m, middle_eq, rest_eq⟩ := Text.part_rest inner (by omega)
  have none : m = [] := by
    apply Text.byteLength_eq_zero.mp
    rw [front_eq, middle_eq, Text.byteLength_append] at same
    omega
  subst none
  rw [List.append_nil] at middle_eq
  exact ⟨front_eq.symm, middle_eq.symm, rest_eq⟩

theorem opening (splices : Splices (s.shift dedent 0) offset first head new) {rest whole : Text}
    (all : Splices (s.shift dedent 0) offset (first ++ later) (head ++ rest) whole)
    (past : ∀ edit ∈ later, offset + head.byteLength ≤ edit.span.start) : new <+: whole := by
  induction splices generalizing whole with
  | @rest offset head =>
      generalize same : head ++ rest = part at all
      cases all with
      | rest =>
          rw [← same]
          apply s.shift_after
      | @edit _ kept old after new edit edits span _ _ =>
          have low := past edit List.mem_cons_self
          rw [span] at low
          dsimp only at low
          obtain ⟨k, rfl, -⟩ := Text.part_rest same (by omega)
          apply (s.shift_after dedent offset head k).trans
          apply List.prefix_append
  | @edit offset kept old after new edit edits span some _ ih =>
      rw [List.append_assoc, List.append_assoc] at all
      generalize same : kept ++ (old ++ (after ++ rest)) = part at all
      rw [List.cons_append] at all
      cases all with
      | edit span' _ all =>
          obtain ⟨rfl, rfl, rfl⟩ := parts_eq same (span.symm.trans span')
          have start : edit.span.stop + Text.byteLength after =
              offset + Text.byteLength (kept ++ (old ++ after)) := by
            rw [span, Text.byteLength_append, Text.byteLength_append]
            dsimp only
            omega
          obtain ⟨k, rfl⟩ := ih all fun edit member => by
            rw [start]
            exact past edit member
          exact ⟨k, by simp [List.append_assoc]⟩

theorem ending {tail : Text} (splices : Splices (s.shift dedent 0) offset edits (head ++ tail) new)
    (before : ∀ edit ∈ edits, edit.span.stop ≤ offset + head.byteLength)
    (opens : Source.Opens tail) (line : '\n' ∉ tail) :
    ∃ front, Splices (s.shift dedent 0) offset edits head front ∧ new = front ++ tail := by
  generalize whole : head ++ tail = part at splices
  induction splices generalizing head with
  | @rest offset part =>
      obtain ⟨left, parts⟩ := s.shift_append dedent 0 offset head tail
      refine ⟨_, .rest, ?_⟩
      rw [← whole, parts, s.shift_opens dedent left _ opens, s.shift_line dedent _ line]
  | @edit offset kept old rest new edit edits span some _ ih =>
      rw [List.forall_mem_cons] at before
      have stop := before.1
      rw [span] at stop
      dsimp only at stop
      rw [← List.append_assoc] at whole
      obtain ⟨k, head_eq, rest_eq⟩ := Text.part_rest whole.symm
        (by rw [Text.byteLength_append]; omega)
      have width := congrArg Text.byteLength head_eq
      rw [Text.byteLength_append, Text.byteLength_append] at width
      have later : ∀ next ∈ edits, next.span.stop ≤ edit.span.stop + k.byteLength := by
        intro next member
        have low := before.2 next member
        rw [span]
        dsimp only
        omega
      obtain ⟨front, splices, same⟩ := ih later rest_eq.symm
      rw [head_eq, List.append_assoc]
      refine ⟨_, .edit span some splices, ?_⟩
      rw [same, List.append_assoc, List.append_assoc]

theorem follows {before old follow after : Text} {edit : Edit}
    (splices : Splices (s.shift dedent 0) offset edits part new) (member : edit ∈ edits)
    (whole : part = before ++ (old ++ (follow ++ after)))
    (place : edit.span = ⟨offset + before.byteLength, offset + before.byteLength + old.byteLength⟩)
    (line : '\n' ∉ follow) (free : ∀ other ∈ edits, other.span.start ≤ edit.span.start ∨
      edit.span.stop + follow.byteLength ≤ other.span.start) :
    ∃ x y, new = x ++ (edit.text ++ (follow ++ y)) := by
  induction splices generalizing before with
  | rest => cases member
  | @edit offset kept other rest new first edits span some splices ih =>
      rw [List.forall_mem_cons] at free
      have low := splices.bounds
      rw [List.mem_cons] at member
      rcases member with rfl | member
      · obtain ⟨rfl, rfl, rfl⟩ := parts_eq whole (span.symm.trans place)
        have onward : Splices (s.shift dedent 0) edit.span.stop ([] ++ edits)
            (follow ++ after) new := splices
        have copied : Splices (s.shift dedent 0) edit.span.stop [] follow follow := by
          have rest : Splices (s.shift dedent 0) edit.span.stop [] follow
            (s.shift dedent 0 edit.span.stop follow) := .rest
          rwa [s.shift_line dedent _ line] at rest
        obtain ⟨y, rfl⟩ := copied.opening onward fun next member => by
          rcases free.2 next member with start | start
          · have past := low next member
            have filled := Text.byteLength_pos some
            rw [span] at start past
            dsimp only at start past
            omega
          · exact start
        exact ⟨_, y, rfl⟩
      · have past := low edit member
        have start := past.1
        rw [span, place] at start
        dsimp only at start
        rw [← List.append_assoc] at whole
        obtain ⟨k, rfl, rfl⟩ := Text.part_rest whole (by rw [Text.byteLength_append]; omega)
        have width : offset + Text.byteLength (kept ++ other ++ k) =
            first.span.stop + k.byteLength := by
          rw [span, Text.byteLength_append, Text.byteLength_append]
          dsimp only
          omega
        obtain ⟨x, y, rfl⟩ := ih member rfl (by rw [place, width]) free.2
        refine ⟨s.shift dedent 0 offset kept ++ (first.text ++ x), y, ?_⟩
        simp only [List.append_assoc]

end Splices

namespace Rebuilt

variable {s : Source} {dedent offset : Nat} {edits : List Edit} {directives : Option Span}
  {separator inner result : Text} {block : List Text}

theorem intercalate_ends (separator : Text) (texts : List Text) (last : Text) :
    ∃ front, separator.intercalate (texts ++ [last]) = front ++ last := by
  induction texts with
  | nil => exact ⟨[], List.intercalate_singleton⟩
  | cons first others ih =>
      obtain ⟨front, same⟩ := ih
      refine ⟨first ++ separator ++ front, ?_⟩
      rw [List.cons_append, List.intercalate_cons_of_ne_nil (by simp), same]
      simp only [List.append_assoc]

theorem bounds (rebuilt : Rebuilt (s.shift dedent 0) offset edits directives separator block inner
    result) : ∀ edit ∈ edits, offset ≤ edit.span.start ∧
      edit.span.stop ≤ offset + inner.byteLength := by
  cases rebuilt with
  | blank _ none =>
      rw [none]
      nofun
  | solid _ _ _ splices _ _ =>
      intro edit member
      have bounds := splices.bounds edit member
      simp only [Text.byteLength_append]
      omega

theorem trimmed_eq {left part right head tail right' : Text} (leftBlank : left.Blank)
    (rightBlank : right.Blank) (partSolid : part.Solid) (blank : right'.Blank) (solid : tail.Solid)
    (whole : left ++ (part ++ right) = head ++ (tail ++ right')) :
    ∃ front, head = left ++ front ∧ part = front ++ tail := by
  have start : Text.byteLength [] + left.byteLength ≤ head.byteLength :=
    Text.solid_starts_past whole leftBlank solid (Nat.zero_le _)
  have all : (left ++ part) ++ (right ++ []) = head ++ (tail ++ right') := by
    simp [← whole]
  have all' : (head ++ tail) ++ (right' ++ []) = left ++ (part ++ right) := by
    simp [whole]
  have width := congrArg Text.byteLength whole
  simp only [Text.byteLength_append] at width
  have stop := Text.solid_stops_before all rightBlank solid
    (by rw [Text.byteLength_append]; omega)
  have stop' := Text.solid_stops_before all' blank partSolid
    (by rw [Text.byteLength_append]; omega)
  rw [Text.byteLength_append] at stop stop'
  simp only [Text.byteLength, Nat.zero_add] at start
  obtain ⟨front, rfl, inner⟩ := Text.part_rest whole start
  rw [← List.append_assoc] at inner
  obtain ⟨k, same, -⟩ := Text.part_rest inner.symm
    (by rw [Text.byteLength_append] at stop stop' ⊢; omega)
  have none : k = [] := by
    apply Text.byteLength_eq_zero.mp
    have width := congrArg Text.byteLength same
    simp only [Text.byteLength_append] at width stop stop'
    omega
  subst none
  rw [List.append_nil] at same
  exact ⟨front, rfl, same⟩

theorem ends (rebuilt : Rebuilt (s.shift dedent 0) offset edits directives separator block inner
      result) {head tail right : Text} (whole : inner = head ++ (tail ++ right))
    (blank : right.Blank) (solid : tail.Solid) (line : '\n' ∉ tail)
    (before : ∀ edit ∈ edits, edit.span.stop ≤ offset + head.byteLength)
    (past : ∀ span, directives = some span → span.stop ≤ offset + head.byteLength) :
    ∃ front, result = front ++ tail := by
  have opens : Source.Opens tail := by simpa using Source.opens_of_solid solid []
  cases rebuilt with
  | blank innerBlank _ =>
      obtain ⟨⟨c, first, opens⟩, -⟩ := solid
      have member : c ∈ tail := List.mem_of_mem_head? first
      rw [innerBlank c (by simp [whole, member])] at opens
      cases opens
  | @solid left part right' moved _ front back leftBlank rightBlank partSolid splices opening
      interposes =>
      obtain ⟨middle, rfl, rfl⟩ := trimmed_eq leftBlank rightBlank partSolid blank solid whole
      rw [Text.byteLength_append, ← Nat.add_assoc] at before past
      obtain ⟨x, spliced, rfl⟩ := splices.ending before opens line
      obtain ⟨gap, parts, gapBlank, closed⟩ := interposes.parts
      -- What is in front of the block reaches no further than the directives.
      have short : front.getD [] <+: x := by
        cases directives with
        | none =>
            have none : front = none := opening
            rw [none]
            apply List.nil_prefix
        | some span =>
            obtain ⟨first, rest, _, later, opened, same, stop, rfl, apart, openedBy, rfl⟩ := opening
            have low := past span rfl
            obtain ⟨k, rfl, -⟩ := Text.part_rest same.symm (by omega)
            apply openedBy.opening spliced
            rwa [stop]
      obtain ⟨y, rfl⟩ := short
      rw [List.append_assoc, List.append_cancel_left_eq] at parts
      have whole : [] ++ (gap ++ back.getD []) = y ++ (tail ++ []) := by simp [parts]
      have low := Text.solid_starts_past whole gapBlank solid (Nat.zero_le _)
      simp only [Text.byteLength, Nat.zero_add] at low
      obtain ⟨z, -, ended⟩ := Text.part_rest parts.symm low
      cases back with
      | none =>
          have empty := (List.append_eq_nil_iff.mp ended.symm).2
          exact absurd empty solid.ne_nil
      | some back =>
          obtain ⟨w, same⟩ := intercalate_ends separator (front.toList ++ block) back
          refine ⟨w ++ z, ?_⟩
          rw [interposes.result, Option.toList_some, same, List.append_assoc, ← ended,
            Option.getD_some]

end Rebuilt

theorem Job.Rebuilds.ends {job : Job} {p : Position} {span region : Span} {call : Node}
    {plan : Plan} {directives : Option Span} {head tail right : Text}
    (rebuilds : job.Rebuilds p span call plan) (braced : plan.body = .statements region directives)
    (body : job.source.slice region = head ++ (tail ++ right)) (blank : right.Blank)
    (solid : tail.Solid) (line : '\n' ∉ tail)
    (kept : ∀ q n edit, job.Searches q n → (job.search q n).edits = [edit] →
      edit.span.within region = true → edit.span.stop ≤ region.start + head.byteLength)
    (past : ∀ d, directives = some d → d.stop ≤ region.start + head.byteLength) :
    ∃ front, (job.search p (.mk .expressionStatement span [call])).edits =
      [⟨span, front ++ tail⟩] := by
  obtain ⟨factory, heads, bodySpan, statements, before, inner, after, hasBody, whole, bodySpan_eq,
    same, -, found, replacement, edits, rebuilt⟩ := rebuilds
  rw [braced, bodySpan_eq] at same
  obtain ⟨rfl, rfl⟩ := ModuleBody.statements.inj same
  have inside : Amd.interior ⟨before.byteLength, before.byteLength + inner.byteLength + 2⟩ =
      ⟨before.byteLength + 1, before.byteLength + 1 + inner.byteLength⟩ := by
    simp [Amd.interior]
    omega
  rw [inside] at body kept past
  have between : job.source.slice ⟨before.byteLength + 1,
      before.byteLength + 1 + inner.byteLength⟩ = inner := by
    have parts : job.source.text = before ++ ['{'] ++ (inner ++ '}' :: after) := by
      rw [whole]
      simp
    have start : before.byteLength + 1 = Text.byteLength (before ++ ['{']) :=
      (Text.byteLength_append before ['{']).symm
    exact Text.slice_eq parts start (congrArg (· + inner.byteLength) start)
  rw [between] at body
  have ended := rebuilt.ends body blank solid line
  obtain ⟨front, rfl⟩ := ended (fun edit member => by
    obtain ⟨q, n, searched, alone⟩ := found edit member
    have bounds := rebuilt.bounds edit member
    apply kept q n edit searched alone
    simp only [Span.within, Bool.and_eq_true, decide_eq_true_eq]
    exact bounds) past
  exact ⟨front, edits⟩

/-- A call whose body ends in one line that stays as it is, before a text that stays as well. -/
structure Job.Lifts (job : Job) (path : List Node) (span region : Span) (call : Node)
    (plan : Plan) (tail follow : Text) : Prop where
  exposed : Exposed job.root job.policy [] job.root path (.mk .expressionStatement span [call])
  amd : isAmd call = true
  among : path.head?.any holdsStatements = true
  decided : ∃ notes, decision job.root job.policy call = .convert notes plan
  follows : ∃ front statement rest : Text,
    job.source.text = front ++ (statement ++ (follow ++ rest)) ∧
      span = ⟨front.byteLength, front.byteLength + statement.byteLength⟩
  free : ∀ path n, Exposed job.root job.policy [] job.root path n →
    Converts job.root job.policy path n →
    n.span.start ≤ span.start ∨ span.stop + follow.byteLength ≤ n.span.start
  ends : ∃ head right : Text, ∃ directives, plan.body = .statements region directives ∧
    job.source.slice region = head ++ (tail ++ right) ∧ right.Blank ∧
    (∀ q n edit, job.Searches q n → (job.search q n).edits = [edit] →
      edit.span.within region = true → edit.span.stop ≤ region.start + head.byteLength) ∧
    ∀ d, directives = some d → d.stop ≤ region.start + head.byteLength
  solid : tail.Solid
  line : '\n' ∉ tail ++ follow

theorem Job.Lifts.runs_on {job : Job} {mode : Mode} {path : List Node} {span region : Span}
    {call : Node} {plan : Plan} {tail follow output : Text}
    (lifts : job.Lifts path span region call plan tail follow)
    (parsed : readProgram mode job.source.text = .ok job.root)
    (done : (job.search .top job.root).failure = none)
    (splices : Splices (fun _ kept => kept) 0 (job.search .top job.root).edits job.source.text
      output) : ∃ x y, output = x ++ (tail ++ (follow ++ y)) := by
  obtain ⟨-, spans⟩ := program_edits parsed done
  have line := lifts.line
  rw [List.mem_append, not_or] at line
  obtain ⟨p, rfl, -, visits⟩ := lifts.exposed.visits (p := .top) rfl
  obtain ⟨notes, decided⟩ := lifts.decided
  obtain ⟨head, right, directives, braced, body, blank, kept, past⟩ := lifts.ends
  have rebuilds := (visits.searches .top).rebuilt parsed done lifts.amd lifts.among decided braced
  obtain ⟨before, edits⟩ := rebuilds.ends braced body blank lifts.solid line.1 kept past
  have member := visits.found done _ (by rw [edits]; exact List.mem_singleton_self _)
  obtain ⟨front, statement, rest, whole, place⟩ := lifts.follows
  have still : job.source.shift 0 0 = fun _ kept => kept := by
    funext offset kept
    exact Source.shift_zero ..
  rw [← still] at splices
  obtain ⟨x, y, rfl⟩ := splices.follows member whole (by simpa using place) line.2 (by
    intro other found
    obtain ⟨path, n, exposed, converts, same⟩ := (spans _).mp (List.mem_map_of_mem found)
    rw [← same]
    exact lifts.free path n exposed converts)
  refine ⟨x ++ before, y, ?_⟩
  simp only [List.append_assoc]

/-- Nothing is put between the last line of a lifted body and what followed the call: neither a
line feed nor the semicolon that ended the call. -/
theorem convert_runs_on {options : Options} {text output : Text} {root : Node}
    {path : List Node} {span region : Span} {call : Node} {plan : Plan} {tail follow : Text}
    (converted : convert options text = .ok output)
    (parsed : readProgram options.mode text = .ok root)
    (lifts : Job.Lifts ⟨root, .ofProgram text root, options.policy⟩ path span region call plan
      tail follow) : ∃ x y, output = x ++ (tail ++ (follow ++ y)) := by
  obtain ⟨_, parsed', done, splices⟩ := convert_splices converted
  cases parsed.symm.trans parsed'
  exact lifts.runs_on parsed done splices

/-- A last statement that only the brace after it ended runs into what follows the call. -/
theorem convert_joins_statements :
    convert {} "define(function () \x7b a() \x7d); b();".toList = .ok "a() b();".toList ∧
      (readProgram .global "a() b();".toList).toOption.isNone = true :=
  ⟨ok_of_toOption (by decide +kernel), by decide +kernel⟩

namespace Trivia

theorem skip_line {mode : Mode} {offset : Nat} {newline : Bool} {line : Text}
    (plain : ∀ c ∈ line, isTerminator c = false) (rest : Text) :
    skip mode .line offset newline (line ++ rest) =
      skip mode .line (offset + line.byteLength) newline rest := by
  induction line generalizing offset with
  | nil => rfl
  | cons c cs ih =>
      obtain ⟨first, others⟩ := List.forall_mem_cons.mp plain
      have goes_on : ¬ isTerminator c = true := Bool.eq_false_iff.mp first
      calc skip mode .line offset newline (c :: (cs ++ rest))
          = skip mode .line (offset + c.utf8Size) newline (cs ++ rest) := by
            rw [skip, if_neg goes_on]
        _ = skip mode .line (offset + c.utf8Size + Text.byteLength cs) newline rest := ih others
        _ = skip mode .line (offset + Text.byteLength (c :: cs)) newline rest := by
            rw [Text.byteLength, Nat.add_assoc]

theorem skip_comment {mode : Mode} {offset : Nat} {newline : Bool} {line : Text}
    (plain : ∀ c ∈ line, isTerminator c = false) (rest : Text) :
    skip mode .between offset newline ('/' :: '/' :: line ++ rest) =
      skip mode .line (offset + Text.byteLength ('/' :: '/' :: line)) newline rest := by
  have second : ∀ c ∈ '/' :: line, isTerminator c = false := by
    rw [List.forall_mem_cons]
    exact ⟨by decide, plain⟩
  calc skip mode .between offset newline ('/' :: '/' :: (line ++ rest))
      = skip mode .line (offset + '/'.utf8Size) newline ('/' :: line ++ rest) := by
        rw [skip, if_neg (by decide), if_neg (by decide), if_pos (by simp), List.cons_append]
    _ = skip mode .line (offset + '/'.utf8Size + Text.byteLength ('/' :: line)) newline rest :=
        skip_line second rest
    _ = skip mode .line (offset + Text.byteLength ('/' :: '/' :: line)) newline rest := by
        rw [Nat.add_assoc]
        rfl

end Trivia

/-- Where a lifted body ends in a line comment, what followed the call on its line is a part of
that comment. -/
theorem convert_comments_on {options : Options} {text output : Text} {root : Node}
    {path : List Node} {span region : Span} {call : Node} {plan : Plan} {note follow : Text}
    (converted : convert options text = .ok output)
    (parsed : readProgram options.mode text = .ok root)
    (lifts : Job.Lifts ⟨root, .ofProgram text root, options.policy⟩ path span region call plan
      ('/' :: '/' :: note) follow)
    (plain : ∀ c ∈ note ++ follow, Trivia.isTerminator c = false) :
    ∃ x y, output = x ++ ('/' :: '/' :: (note ++ follow) ++ y) ∧
      ∀ offset newline, Trivia.skip options.mode .between offset newline
          ('/' :: '/' :: (note ++ follow) ++ y) =
        Trivia.skip options.mode .line
          (offset + Text.byteLength ('/' :: '/' :: (note ++ follow))) newline y := by
  obtain ⟨x, y, rfl⟩ := convert_runs_on converted parsed lifts
  refine ⟨x, y, by simp, fun offset newline => ?_⟩
  exact Trivia.skip_comment plain y

/-- A last comment runs on over what follows the call on its line. -/
theorem convert_comments_out :
    let text := "define(function () \x7b\n  a(); // note\n\x7d); b();".toList
    let output := "a(); // note b();".toList
    convert {} text = .ok output ∧
      (readProgram .global text).toOption.map (·.children.length) = some 2 ∧
      (readProgram .global output).toOption.map (·.children.length) = some 1 :=
  ⟨ok_of_toOption (by decide +kernel), by decide +kernel, by decide +kernel⟩

end AmdUnwrap
