import AmdUnwrap.Proofs.Lineage
import AmdUnwrap.Proofs.Walk

/-!
What holds of the stacks at every point of a walk. Each frame over that of the program belongs to a
converted statement around, and what it holds stands in order in that statement, in front of all
that the walk has yet to come to.
-/

namespace AmdUnwrap
open Amd

namespace Job

def descent (job : Job) (w : Walk) (n : Node) : Option Walk :=
  match job.action w n with
  | .convert notes plan call => some (job.opening w n notes plan call)
  | .descend notes => some ((w.note notes).enter n)
  | _ => none

/-- The nodes that the walk over a program comes to, and its states there. -/
inductive Arrives (job : Job) : Walk → Node → Prop where
  | root : Arrives job .start job.root
  | child {w inside : Walk} {n m : Node} {before after : List Node} : Arrives job w n →
      job.descent w n = some inside → n.children = before ++ m :: after →
      Arrives job (job.visitAll inside before) m

variable {job : Job} {w : Walk} {n : Node}

theorem action_decides {notes : List Event} {plan : Plan} {call : Span}
    (acts : job.action w n = .convert notes plan call) :
    ∃ span c, n = .mk .expressionStatement span [c] ∧ c.span = call ∧ isAmd c = true ∧
      w.position.amongStatements = true ∧ decision job.root job.policy c = .convert notes plan := by
  unfold action at acts
  split at acts
  next span c =>
    split at acts
    · cases acts
    · unfold callAction at acts
      split at acts
      next amd =>
        split at acts
        next among =>
          split at acts
          next notes' plan' decided =>
            cases acts
            exact ⟨span, c, rfl, rfl, amd, among, decided⟩
          · cases acts
          · cases acts
        · cases acts
      · cases acts
  · split at acts <;> cases acts
  · cases acts

theorem action_convert {notes : List Event} {plan : Plan} {call : Span}
    (acts : job.action w n = .convert notes plan call) :
    ∃ span c, n = .mk .expressionStatement span [c] ∧ c.span = call ∧
      Converts job.root job.policy w.ancestors n := by
  obtain ⟨span, c, same, place, amd, among, decided⟩ := action_decides acts
  exact ⟨span, c, same, place, span, c, notes, plan, same, amd, among, decided⟩

theorem action_give {argument : Span} (acts : job.action w n = .give argument) :
    ∃ span c, n = .mk .returnStatement span [c] ∧ c.span = argument := by
  unfold action at acts
  split at acts
  · split at acts
    · cases acts
    · unfold callAction at acts
      repeat' split at acts
      all_goals cases acts
  next span c =>
    split at acts
    · cases acts
      exact ⟨span, c, rfl, rfl⟩
    · cases acts
  · cases acts

end Job

/-- The frames belong to the converted statements around, and their edits stand before an offset,
those of the outer ones before the statement of the next. -/
inductive Framed (root : Node) (policy : Policy) (text : Text) :
    List Node → List Span → List Frame → Nat → Prop where
  | program {ancestors : List Node} {frame : Frame} {offset : Nat} :
      Apart text 0 frame.edits offset → Framed root policy text ancestors [] [frame] offset
  | module {ancestors above : List Node} {span : Span} {call : Node} {converting : List Span}
      {frame : Frame} {frames : List Frame} {offset : Nat} :
      .mk .expressionStatement span [call] :: above <:+ ancestors →
      Converts root policy above (.mk .expressionStatement span [call]) →
      Apart text span.start frame.edits offset →
      Framed root policy text above converting frames span.start →
      Framed root policy text ancestors (call.span :: converting) (frame :: frames) offset

namespace Framed

variable {root : Node} {policy : Policy} {text : Text} {ancestors : List Node}
  {converting : List Span} {frames : List Frame} {frame frame' : Frame} {offset offset' : Nat}

theorem enter {n : Node} (framed : Framed root policy text ancestors converting frames offset) :
    Framed root policy text (n :: ancestors) converting frames offset := by
  cases framed with
  | program apart => exact .program apart
  | module suffix converts apart outer =>
      exact .module (suffix.trans (List.suffix_cons _ _)) converts apart outer

theorem grow (framed : Framed root policy text ancestors converting (frame :: frames) offset)
    (grows : ∀ lo, Apart text lo frame.edits offset → Apart text lo frame'.edits offset') :
    Framed root policy text ancestors converting (frame' :: frames) offset' := by
  cases framed with
  | program apart => exact .program (grows 0 apart)
  | module suffix converts apart outer => exact .module suffix converts (grows _ apart) outer

theorem nonempty (framed : Framed root policy text ancestors converting frames offset) :
    frames ≠ [] := by
  cases framed <;> exact List.cons_ne_nil _ _

theorem count (framed : Framed root policy text ancestors converting frames offset) :
    frames.length = converting.length + 1 := by
  induction framed with
  | program _ => rfl
  | module _ _ _ _ ih => rw [List.length_cons, List.length_cons, ih]

theorem apart (framed : Framed root policy text ancestors converting frames offset) :
    ∀ frame ∈ frames, Apart text 0 frame.edits offset := by
  induction framed with
  | program apart =>
      intro frame member
      rw [List.mem_singleton.mp member]
      exact apart
  | module _ _ apart _ ih =>
      refine List.forall_mem_cons.mpr ⟨.append (.nil (Nat.zero_le _)) apart, ?_⟩
      intro frame member
      exact (ih frame member).reach apart.le

theorem module_apart (framed : Framed root policy text ancestors converting frames offset) {i : Nat}
    {call : Span} (found : frames[i]? = some frame) (replaced : converting[i]? = some call) :
    ∃ span c above, .mk .expressionStatement span [c] :: above <:+ ancestors ∧ c.span = call ∧
      Converts root policy above (.mk .expressionStatement span [c]) ∧
      Apart text span.start frame.edits offset := by
  induction framed generalizing i with
  | program _ => simp at replaced
  | @module ancestors above span c _ _ _ offset suffix converts apart outer ih =>
      cases i with
      | zero =>
          cases found
          cases replaced
          exact ⟨span, c, above, suffix, rfl, converts, apart⟩
      | succ i =>
          obtain ⟨span', c', above', suffix', same, converts', apart'⟩ := ih found replaced
          have deeper := (suffix'.trans (List.suffix_cons _ _)).trans suffix
          exact ⟨span', c', above', deeper, same, converts', apart'.reach apart.le⟩

end Framed

namespace Job

variable {job : Job} {w : Walk} {text : Text} {lo : Nat}

theorem visit_convert {n : Node} {notes : List Event} {plan : Plan} {call : Span}
    (some : w.frames ≠ []) (acts : job.action w n = .convert notes plan call) :
    (job.visit w n).frame.edits = w.frame.edits ++ [job.source.moduleEdit n.span plan
      (job.visitAll (job.opening w n notes plan call) n.children).frame.edits w.frame.dedent] := by
  have restores : (job.opening w n notes plan call).Restores
      (job.visitAll (job.opening w n notes plan call) n.children) :=
    visitAll_restores fun m _ w => job.visit_restores w m
  obtain ⟨kind, span, children⟩ := n
  rw [visit, acts]
  exact closing_edits some restores

theorem visitAll_apart_of_visit {ns : List Node} {mid hi : Nat} (nested : Nested text mid ns hi)
    (some : w.frames ≠ []) (apart : Apart text lo w.frame.edits mid)
    (each : ∀ n ∈ ns, ∀ w : Walk, w.frames ≠ [] → Apart text lo w.frame.edits n.span.start →
      Apart text lo (job.visit w n).frame.edits n.span.stop) :
    Apart text lo (job.visitAll w ns).frame.edits hi := by
  induction nested generalizing w with
  | nil le =>
      rw [visitAll]
      exact apart.reach le
  | @node _ _ n _ start _ _ _ _ ih =>
      rw [List.forall_mem_cons] at each
      rw [visitAll]
      have restores := job.visit_restores w n
      exact ih (restores.nonempty some) (each.1 w some (apart.reach start)) each.2

theorem statement_filled {span : Span} {call : Node}
    (nested : Nested text span.start [call] span.stop) (amd : isAmd call = true) :
    span.start < span.stop := by
  have member := List.mem_singleton_self call
  have filled := (nested.mem member).1.filled (by rw [kind_of_isAmd amd]; rfl)
  have bounds := nested.bounds call member
  omega

theorem visit_apart {n : Node} (stands : n.kind ≠ .program → n.Stands text)
    (nested : Nested text n.span.start n.children n.span.stop) (some : w.frames ≠ [])
    (apart : Apart text lo w.frame.edits n.span.start) :
    Apart text lo (job.visit w n).frame.edits n.span.stop := by
  induction n using Node.induction generalizing w lo with
  | step n ih =>
      have each (m : Node) (member : m ∈ n.children) (lo : Nat) (w : Walk) (some : w.frames ≠ [])
          (apart : Apart text lo w.frame.edits m.span.start) :=
        ih m member (fun _ => (nested.mem member).1) (nested.mem member).2 some apart
      have alone {edit : Edit} (same : edit.span = n.span) (kind : n.kind ≠ .program)
          (filled : n.span.start < n.span.stop) :
          Apart text n.span.start [edit] n.span.stop := by
        refine .cons (Nat.le_of_eq (congrArg Span.start same).symm) ?_
          (.nil (Nat.le_of_eq (congrArg Span.stop same)))
        rw [same]
        exact (stands kind).solid filled
      cases acts : job.action w n with
      | convert notes plan call =>
          obtain ⟨span, c, rfl, -, _, _, _, _, same, amd, -⟩ := action_convert acts
          cases same
          rw [visit_convert some acts]
          exact apart.append (alone rfl (by rintro ⟨⟩) (statement_filled nested amd))
      | give argument =>
          have isReturn : n.kind = .returnStatement := by
            obtain ⟨_, _, rfl, -⟩ := action_give acts
            rfl
          have other : n.kind ≠ .program := by
            rw [isReturn]
            rintro ⟨⟩
          have filled : n.span.start < n.span.stop := (stands other).filled (by rw [isReturn]; rfl)
          obtain ⟨kind, span, children⟩ := n
          rw [visit, acts]
          dsimp only
          rw [Walk.frame_emit some]
          exact apart.append (alone rfl other filled)
      | stop | fail list =>
          obtain ⟨kind, span, children⟩ := n
          rw [visit, acts]
          exact apart.reach nested.le
      | descend notes =>
          obtain ⟨kind, span, children⟩ := n
          rw [visit, acts]
          exact visitAll_apart_of_visit nested some apart (each · · lo)

theorem visitAll_apart {ns : List Node} {mid hi : Nat} (nested : Nested text mid ns hi)
    (some : w.frames ≠ []) (apart : Apart text lo w.frame.edits mid) :
    Apart text lo (job.visitAll w ns).frame.edits hi := by
  apply visitAll_apart_of_visit nested some apart
  intro n member w some apart
  obtain ⟨stands, inside⟩ := nested.mem member
  exact visit_apart (fun _ => stands) inside some apart

theorem opening_apart {n : Node} {notes : List Event} {plan : Plan} {call : Span}
    (nested : Nested text n.span.start n.children n.span.stop) :
    Apart text n.span.start
      (job.visitAll (job.opening w n notes plan call) n.children).frame.edits n.span.stop := by
  have some : (job.opening w n notes plan call).frames ≠ [] := List.cons_ne_nil _ _
  have empty : Apart text n.span.start (job.opening w n notes plan call).frame.edits
      n.span.start := .nil (Nat.le_refl _)
  exact visitAll_apart nested some empty

end Job

namespace Framed

variable {job : Job} {root : Node} {policy : Policy} {text : Text} {w w' : Walk}
  {offset offset' : Nat}

theorem restored (framed : Framed root policy text w.ancestors w.converting w.frames offset)
    (restores : w.Restores w')
    (grows : ∀ lo, Apart text lo w.frame.edits offset → Apart text lo w'.frame.edits offset') :
    Framed root policy text w'.ancestors w'.converting w'.frames offset' := by
  have outer := restores.outer
  have some := framed.nonempty
  have some' := restores.nonempty some
  rw [restores.ancestors, restores.converting]
  unfold Walk.frame at grows
  cases frames : w.frames with
  | nil => exact absurd frames some
  | cons frame rest =>
      cases frames' : w'.frames with
      | nil => exact absurd frames' some'
      | cons frame' rest' =>
          rw [frames] at framed grows outer
          rw [frames'] at grows outer
          obtain rfl : rest' = rest := outer
          exact framed.grow grows

theorem descent {n : Node} {inside : Walk}
    (framed : Framed job.root job.policy text w.ancestors w.converting w.frames n.span.start)
    (descends : job.descent w n = some inside) :
    inside.ancestors = n :: w.ancestors ∧
      Framed job.root job.policy text inside.ancestors inside.converting inside.frames
        n.span.start := by
  unfold Job.descent at descends
  cases acts : job.action w n with
  | stop => simp [acts] at descends
  | fail list => simp [acts] at descends
  | give argument => simp [acts] at descends
  | convert notes plan call =>
      rw [acts] at descends
      cases descends
      obtain ⟨span, c, rfl, rfl, converts⟩ := Job.action_convert acts
      exact ⟨rfl, .module List.suffix_rfl converts (.nil (Nat.le_refl _)) framed⟩
  | descend notes =>
      rw [acts] at descends
      cases descends
      exact ⟨rfl, framed.enter⟩

end Framed

theorem Job.Arrives.framed {job : Job} {mode : Mode} {text : Text} {w : Walk} {n : Node}
    (arrives : job.Arrives w n) (parsed : readProgram mode text = .ok job.root) :
    Node.Reaches job.root w.ancestors n ∧
      Framed job.root job.policy text w.ancestors w.converting w.frames n.span.start := by
  induction arrives with
  | root => exact ⟨.top, .program (.nil (Nat.zero_le _))⟩
  | @child w inside n m before after _ descends split ih =>
      obtain ⟨reaches, framed⟩ := ih
      obtain ⟨-, nested⟩ := reaches.placed parsed
      obtain ⟨path, below⟩ := framed.descent descends
      have member : m ∈ n.children := by
        rw [split]
        exact List.mem_append_right _ List.mem_cons_self
      rw [split] at nested
      obtain ⟨mid, front, back⟩ := nested.split
      have start := (back.bounds m List.mem_cons_self).1
      have restores : inside.Restores (job.visitAll inside before) :=
        visitAll_restores fun m _ w => job.visit_restores w m
      constructor
      · rw [restores.ancestors, path]
        exact reaches.child member
      · apply below.restored restores
        intro lo apart
        exact (visitAll_apart front below.nonempty apart).reach start

theorem Node.Reaches.within_ancestor {root n m : Node} {mode : Mode} {text : Text}
    {path above : List Node} (reaches : Node.Reaches root path n)
    (parsed : readProgram mode text = .ok root) (suffix : m :: above <:+ path) :
    n.span.start ≤ n.span.stop ∧ n.span.stop ≤ m.span.stop := by
  induction reaches with
  | top => cases List.suffix_nil.mp suffix
  | @child path k n upper member ih =>
      have bounds := (upper.placed parsed).2.bounds n member
      rcases List.suffix_cons_iff.mp suffix with same | short
      · cases same
        omega
      · have inside := ih short
        omega

/-- The stacks of a walk at a node, where all edits stand before an offset. -/
structure Walk.InPlace (w : Walk) (job : Job) (n : Node) (offset : Nat) : Prop where
  count : w.frames.length = w.converting.length + 1
  path : Node.Reaches job.root w.ancestors n
  ordered : ∀ frame ∈ w.frames, Apart job.source.text 0 frame.edits offset
  inside : ∀ (i : Nat) (frame : Frame) (call : Span), w.frames[i]? = some frame →
    w.converting[i]? = some call → ∃ span c above,
      .mk .expressionStatement span [c] :: above <:+ w.ancestors ∧ c.span = call ∧
      Converts job.root job.policy above (.mk .expressionStatement span [c]) ∧
      Apart job.source.text span.start frame.edits span.stop

theorem Framed.inPlace {job : Job} {mode : Mode} {w : Walk} {n : Node} {offset : Nat}
    (framed : Framed job.root job.policy job.source.text w.ancestors w.converting w.frames offset)
    (parsed : readProgram mode job.source.text = .ok job.root)
    (reaches : Node.Reaches job.root w.ancestors n) (low : offset ≤ n.span.stop) :
    w.InPlace job n offset := by
  refine ⟨framed.count, reaches, framed.apart, ?_⟩
  intro i frame call found replaced
  obtain ⟨span, c, above, suffix, same, converts, apart⟩ := framed.module_apart found replaced
  have stop : n.span.stop ≤ span.stop := (reaches.within_ancestor parsed suffix).2
  exact ⟨span, c, above, suffix, same, converts, apart.reach (Nat.le_trans low stop)⟩

theorem Job.visit_program {job : Job} {mode : Mode} {text : Text}
    (parsed : readProgram mode text = .ok job.root) :
    Apart text 0 (job.visit .start job.root).frame.edits text.byteLength := by
  obtain ⟨body, root, nested⟩ := readProgram_nested parsed
  have some : Walk.start.frames ≠ [] := List.cons_ne_nil _ _
  have empty : Apart text 0 Walk.start.frame.edits 0 := .nil (Nat.le_refl 0)
  rw [root]
  exact Job.visit_apart (fun other => absurd rfl other) nested some empty

/-- At every node of a program the stacks of the walk are in place, and a visit restores them. No
edits are ever put into the text of a call, or that of the program, but in order and apart. -/
theorem walk_inPlace {mode : Mode} {policy : Policy} {text : Text} {root : Node}
    (parsed : readProgram mode text = .ok root) :
    let job : Job := ⟨root, .ofProgram text root, policy⟩
    (∀ w n, job.Arrives w n → w.InPlace job n n.span.start ∧ w.Restores (job.visit w n) ∧
      (job.visit w n).InPlace job n n.span.stop ∧
      ∀ notes plan call, job.action w n = .convert notes plan call →
        let edits := (job.visitAll (job.opening w n notes plan call) n.children).frame.edits
        Apart text n.span.start edits n.span.stop ∧ (job.visit w n).frame.edits =
          w.frame.edits ++ [job.source.moduleEdit n.span plan edits w.frame.dedent]) ∧
    Apart text 0 (job.visit .start root).frame.edits text.byteLength ∧
    unwrapProgram policy text root = (job.visit .start root).conversion job.source := by
  intro job
  refine ⟨?_, job.visit_program parsed, unwrapProgram_eq_walk policy text root⟩
  intro w n arrives
  obtain ⟨reaches, framed⟩ := Job.Arrives.framed arrives parsed
  obtain ⟨stands, nested⟩ := reaches.placed parsed
  have restores := job.visit_restores w n
  have reaches' : Node.Reaches job.root (job.visit w n).ancestors n := by
    rw [restores.ancestors]
    exact reaches
  have visited := framed.restored restores fun lo apart =>
    Job.visit_apart stands nested framed.nonempty apart
  exact ⟨framed.inPlace parsed reaches nested.le, restores,
    visited.inPlace parsed reaches' (Nat.le_refl _),
    fun notes plan call acts =>
      ⟨Job.opening_apart nested, Job.visit_convert framed.nonempty acts⟩⟩

theorem walk_inPlace_nested :
    let text : Text := "define(function () { define(function () { a(); }); });".toList
    ∃ root, readProgram .global text = .ok root ∧
      let job : Job := ⟨root, .ofProgram text root, .abort⟩
      Apart text 0 (job.visit .start root).frame.edits text.byteLength ∧
        ((job.visit .start root).conversion job.source).result = .ok "a();".toList := by
  intro text
  have converted : convert {} text = .ok "a();".toList := ok_of_toOption (by decide +kernel)
  obtain ⟨root, parsed, -⟩ := convert_ok converted
  obtain ⟨-, apart, same⟩ := @walk_inPlace .global .abort text root parsed
  refine ⟨root, parsed, apart, ?_⟩
  rw [← same, ← converted, convert, conversion, parsed]

end AmdUnwrap
