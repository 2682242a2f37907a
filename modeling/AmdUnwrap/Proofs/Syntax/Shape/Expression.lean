import AmdUnwrap.Proofs.Syntax.Shape
import AmdUnwrap.Syntax.Grammar.Expression

namespace AmdUnwrap.Grammar
open Reading

variable {d : Descent}

theorem leaf_plain {start : Nat} {kind : Node.Kind} (role : kind.role = .plain)
    (other : kind.isFunction = false) : (finish start kind []).Gives Node.Plain :=
  .finish fun _ => Node.plain role other nofun

theorem bindingName_plain (s : Setting) : (bindingName s).Gives Node.Plain :=
  .after fun _ => .after fun _ => .after fun _ => leaf_plain rfl rfl

theorem reference_plain (s : Setting) : (reference s).Gives Node.Plain :=
  .after fun _ => .after fun _ => .after fun _ => leaf_plain rfl rfl

theorem stringLiteral_plain : stringLiteral.Gives Node.Plain := by
  refine .after fun t => ?_
  split
  · exact .after fun _ => leaf_plain rfl rfl
  · exact .refuse

theorem propertyKey_plain (shapes : d.Shapes) (s : Setting) :
    (propertyKey d s).Gives Node.Plain := by
  refine .after fun t => ?_
  dsimp only
  split
  · exact .after fun _ => leaf_plain rfl rfl
  · exact stringLiteral_plain
  · exact .after fun _ => leaf_plain rfl rfl
  · refine .after fun _ => .bind (shapes _ .assignment) fun key plain => .after fun _ => ?_
    exact .finish fun _ => Node.plain rfl rfl (List.forall_mem_singleton.mpr plain.fits)
  · exact .refuse

theorem memberKey_plain (shapes : d.Shapes) (s : Setting) : (memberKey d s).Gives Node.Plain := by
  refine .after fun t => ?_
  split
  · exact .after fun _ => leaf_plain rfl rfl
  · exact propertyKey_plain shapes s

theorem memberName_plain : memberName.Gives Node.Plain := by
  refine .after fun t => ?_
  split
  · exact .after fun _ => leaf_plain rfl rfl
  · exact .after fun _ => leaf_plain rfl rfl
  · exact .refuse

theorem elements_plain {item : Reading Node} (each : item.Gives Node.Plain) (bound : Nat) :
    (elements item bound).Gives fun result => ∀ n ∈ result.1, n.Plain := by
  induction bound with
  | zero => exact .refuse
  | succ bound ih =>
      refine .after fun closed => .ite (.pure nofun) (.after fun comma => .ite ?_ ?_)
      · refine .after fun gap => .after fun _ => .bind ih fun (rest, trailing) others => ?_
        have elision : (Node.mk .elision ⟨gap, gap⟩ []).Plain := Node.plain rfl rfl nofun
        exact .pure (List.forall_mem_cons.mpr ⟨elision, others⟩)
      · refine .bind each fun first plain => .after fun closed => ?_
        have one : ∀ n ∈ [first], n.Plain := List.forall_mem_singleton.mpr plain
        refine .ite (.pure one) (.after fun _ => .after fun closed => .ite (.pure one) ?_)
        refine .bind ih fun (rest, trailing) others => ?_
        exact .pure (List.forall_mem_cons.mpr ⟨plain, others⟩)

theorem plain_of_plain {kind : Node.Kind} {span : Span} {children : List Node}
    (role : kind.role = .plain) (other : kind.isFunction = false)
    (plain : ∀ n ∈ children, n.Plain) : (Node.mk kind span children).Plain :=
  Node.plain role other fun n member => (plain n member).fits

theorem plain_pair {n m : Node} (first : n.Plain) (second : m.Plain) :
    ∀ k ∈ [n, m], k.Plain :=
  List.forall_mem_cons.mpr ⟨first, List.forall_mem_singleton.mpr second⟩

theorem withDefault_plain (shapes : d.Shapes) (s : Setting) {pattern : Reading Node}
    (gives : pattern.Gives Node.Plain) : (withDefault d s pattern).Gives Node.Plain := by
  refine .after fun start => .bind gives fun target plain => .after fun assigned => .ite ?_ ?_
  · refine .bind (shapes _ .assignment) fun value plain' => ?_
    exact .finish fun _ => plain_of_plain rfl rfl (plain_pair plain plain')
  · exact .pure plain

theorem restElement_plain {close : Punct} {pattern : Reading Node}
    (gives : pattern.Gives Node.Plain) : (restElement close pattern).Gives Node.Plain := by
  refine .after fun start => .after fun _ => .bind gives fun target plain => .after fun closed => ?_
  refine .ite (.after fun _ => ?_) ?_
  all_goals exact .finish fun _ => plain_of_plain rfl rfl (List.forall_mem_singleton.mpr plain)

theorem arrayItem_plain (shapes : d.Shapes) (s : Setting) : (arrayItem d s).Gives Node.Plain := by
  refine .after fun rest => .ite ?_ ?_
  · exact restElement_plain (shapes s .pattern)
  · exact withDefault_plain shapes s (shapes s .pattern)

theorem objectItem_plain (shapes : d.Shapes) (s : Setting) :
    (objectItem d s).Gives Node.Plain := by
  have keyed {start : Nat} : (do
      let key ← propertyKey d s
      expect .colon
      let value ← withDefault d s (d.read s .pattern)
      finish start .bindingProperty [key, value]).Gives Node.Plain := by
    refine .bind (propertyKey_plain shapes s) fun key plain => .after fun _ => ?_
    refine .bind (withDefault_plain shapes s (shapes s .pattern)) fun value plain' => ?_
    exact .finish fun _ => plain_of_plain rfl rfl (plain_pair plain plain')
  refine .after fun start => .after fun rest => .ite ?_ ?_
  · exact restElement_plain (bindingName_plain s)
  · refine .after fun t => .after fun next => .ite ?_ keyed
    refine .bind (withDefault_plain shapes s (bindingName_plain s)) fun value plain => ?_
    exact .finish fun _ => plain_of_plain rfl rfl (List.forall_mem_singleton.mpr plain)

theorem pattern_plain (shapes : d.Shapes) (s : Setting) : (pattern d s).Gives Node.Plain := by
  refine .after fun t => ?_
  dsimp only
  split
  · refine .after fun _ => .bind (elements_plain (arrayItem_plain shapes _) _) ?_
    exact fun (items, _) plain => .finish fun _ => plain_of_plain rfl rfl plain
  · refine .after fun _ => .bind (.separated (objectItem_plain shapes _) _) ?_
    exact fun (items, _) plain => .finish fun _ => plain_of_plain rfl rfl plain
  · exact bindingName_plain s

theorem parameter_plain (shapes : d.Shapes) (s : Setting) : (parameter d s).Gives Node.Plain := by
  refine .after fun start => .after fun rest => .ite ?_ ?_
  · refine .bind (shapes s .pattern) fun target plain => .after fun closed => ?_
    refine .ite (.after fun _ => ?_) ?_
    all_goals exact .finish fun _ => plain_of_plain rfl rfl (List.forall_mem_singleton.mpr plain)
  · refine .bind (shapes s .pattern) fun target plain => .after fun assigned => .ite ?_ ?_
    · refine .bind (shapes s .assignment) fun value plain' => ?_
      exact .finish fun _ => plain_of_plain rfl rfl (plain_pair plain plain')
    · exact .finish fun _ => plain_of_plain rfl rfl (List.forall_mem_singleton.mpr plain)

theorem parameterList_plain (shapes : d.Shapes) (s : Setting) :
    (parameterList d s).Gives Node.Plain := by
  refine .after fun start => .after fun _ => .bind (.separated (parameter_plain shapes _) _) ?_
  exact fun (items, _) plain => .finish fun _ => plain_of_plain rfl rfl plain

theorem loneParameter_plain (s : Setting) : (loneParameter s).Gives Node.Plain := by
  refine .after fun start => .bind (bindingName_plain s) fun name plain => ?_
  have item : (finish start .parameter [name]).Gives Node.Plain :=
    .finish fun _ => plain_of_plain rfl rfl (List.forall_mem_singleton.mpr plain)
  refine .bind item fun item plain => ?_
  exact .finish fun _ => plain_of_plain rfl rfl (List.forall_mem_singleton.mpr plain)

theorem asDirective?_listed {n directive : Node} (listed : n.Listed)
    (found : asDirective? n = some directive) : directive.Listed := by
  unfold asDirective? at found
  split at found
  next span raw inner =>
    cases found
    have string : (Node.mk (.string raw) inner []).Plain := Node.plain rfl rfl nofun
    exact Node.listed rfl (List.forall_mem_singleton.mpr string.fits)
  · cases found

theorem prologue_listed (shapes : d.Shapes) (s : Setting) (bound : Nat) :
    (prologue d s bound).Gives fun body => ∀ n ∈ body, n.Listed := by
  induction bound with
  | zero => exact .pure nofun
  | succ bound ih =>
      refine .after fun t => ?_
      split
      · refine .bind (shapes s (.statement false)) fun statement listed => ?_
        split
        next directive found =>
          refine .bind ih fun rest others => ?_
          exact .pure (List.forall_mem_cons.mpr ⟨asDirective?_listed listed found, others⟩)
        · exact .pure (List.forall_mem_singleton.mpr listed)
      · exact .pure nofun

theorem some_listed {r : Reading Node} (gives : r.Gives Node.Listed) :
    (r >>= fun n => pure (some n)).Gives fun o => ∀ n, o = some n → n.Listed := by
  refine .bind gives fun n listed => .pure ?_
  rintro _ ⟨⟩
  exact listed

theorem statements_listed (shapes : d.Shapes) (s : Setting) :
    (statements d s).Gives fun body => ∀ n ∈ body, n.Listed := by
  refine .many (.after fun t => ?_) _
  split
  · exact .pure nofun
  · exact .pure nofun
  · exact some_listed (shapes s (.statement false))

theorem functionBody_wellFormed (shapes : d.Shapes) (s : Setting) :
    (functionBody d s).Gives fun body => body.WellFormed ∧ body.kind = .functionBody := by
  refine .after fun start => .after fun _ => ?_
  refine .bind (prologue_listed shapes s _) fun opening first => ?_
  refine .bind (statements_listed shapes s) fun rest later => .after fun _ => ?_
  refine .finish fun _ => ⟨Node.wellFormed rfl fun n member => ?_, rfl⟩
  exact (List.forall_mem_append.mpr ⟨first, later⟩ n member).fits rfl

theorem functionRest_plain (shapes : d.Shapes) {s : Setting} {start : Nat} {async generator : Bool}
    (name : List Node) (named : ∀ n ∈ name, n.Plain) : (do
      let parameters ← parameterList d s
      let body ← functionBody d s
      finish start (.function async generator) (name ++ [parameters, body])).Gives Node.Plain := by
  refine .bind (parameterList_plain shapes s) fun parameters plain => ?_
  refine .bind (functionBody_wellFormed shapes s) fun body isBody => .finish fun span => ?_
  have heads : ∀ n ∈ name ++ [parameters], n.Plain :=
    List.forall_mem_append.mpr ⟨named, List.forall_mem_singleton.mpr plain⟩
  have whole : (Node.mk _ span (name ++ [parameters] ++ [body])).Plain :=
    Node.plain_function (.function async generator) rfl heads isBody
  rwa [List.append_assoc] at whole

theorem methodFunction_plain (shapes : d.Shapes) (async generator : Bool) :
    (methodFunction d async generator).Gives Node.Plain :=
  .after fun _ => functionRest_plain shapes [] nofun

theorem functionExpression_plain (shapes : d.Shapes) (s : Setting) :
    (functionExpression d s).Gives Node.Plain := by
  refine .after fun start => .after fun async => .after fun _ => .after fun generator => ?_
  refine .after fun t => .ite ?_ (.bind (.pure nofun) fun name => functionRest_plain shapes name)
  refine .bind (bindingName_plain _) fun name plain => ?_
  exact functionRest_plain shapes _ (List.forall_mem_singleton.mpr plain)

theorem functionDeclaration_plain (shapes : d.Shapes) (s : Setting) (nameless : Bool) :
    (functionDeclaration d s nameless).Gives Node.Plain := by
  refine .after fun start => .after fun async => .after fun _ => .after fun generator => ?_
  refine .after fun t => .ite (.bind (.pure nofun) fun name => functionRest_plain shapes name) ?_
  refine .bind (bindingName_plain _) fun name plain => ?_
  exact functionRest_plain shapes _ (List.forall_mem_singleton.mpr plain)

theorem arrowHead?_plain (shapes : d.Shapes) (s : Setting) :
    (arrowHead? d s).Gives fun head => ∀ async parameters, head = some (async, parameters) →
      parameters.Plain := by
  have tried {r : Reading (Bool × Node)} (gives : r.Gives fun head => head.2.Plain) :
      (attempt r).Gives fun head => ∀ async parameters, head = some (async, parameters) →
        parameters.Plain :=
    gives.attempt.mono fun head holds async parameters same => holds _ same
  have signed {async : Bool} {r : Reading Node} (gives : r.Gives Node.Plain) : (do
      let parameters ← r
      arrowSign
      return (async, parameters)).Gives fun head => head.2.Plain :=
    .bind gives fun parameters plain => .after fun _ => .pure plain
  refine .after fun t => ?_
  split
  · refine .after fun next => .ite (tried (signed (parameterList_plain shapes s))) ?_
    exact .pure nofun
  · refine .after fun next => ?_
    dsimp only
    refine .ite (tried (.after fun _ => signed (loneParameter_plain _))) (.ite ?_ (.ite ?_ ?_))
    · exact tried (.after fun _ => signed (parameterList_plain shapes _))
    · exact tried (signed (loneParameter_plain s))
    · exact .pure nofun
  · exact .pure nofun

def ArrowBody (concise : Bool) (body : Node) : Prop :=
  match concise with
  | false => body.WellFormed ∧ body.kind = .functionBody
  | true => ∃ value : Node, value.Plain ∧ body = value.conciseBody

theorem arrowBody_gives (shapes : d.Shapes) (s : Setting) (async : Bool) :
    (arrowBody d s async).Gives fun body => ArrowBody body.1 body.2 := by
  refine .after fun braced => .ite ?_ ?_
  · exact .bind (functionBody_wellFormed shapes _) fun body isBody => .pure isBody
  · exact .bind (shapes _ .assignment) fun value plain => .pure ⟨value, plain, rfl⟩

theorem arrowFunction?_plain (shapes : d.Shapes) (s : Setting) :
    (arrowFunction? d s).Gives fun o => ∀ n, o = some n → n.Plain := by
  refine .after fun start => .bind (arrowHead?_plain shapes s) fun head plain => ?_
  split
  · exact .pure nofun
  next async parameters =>
    have heads : ∀ n ∈ [parameters], n.Plain := List.forall_mem_singleton.mpr (plain _ _ rfl)
    refine .bind (arrowBody_gives shapes s async) fun (concise, body) isBody => ?_
    refine .bind (Q := Node.Plain) (.finish fun span => ?_) fun arrow plain => .pure ?_
    · cases concise with
      | false => exact Node.plain_function (.arrow async false) rfl heads isBody
      | true =>
          obtain ⟨value, plain, rfl⟩ := isBody
          exact Node.plain_concise heads plain
    · rintro _ ⟨⟩
      exact plain

theorem valued_fits {kind : Node.Kind} (admits : kind.admits .sequence = true) {parts : List Node}
    (valued : ∀ n ∈ parts, n.Valued) : ∀ n ∈ parts, n.Fits kind :=
  fun n member => (valued n member).fits admits

theorem templateStep_valued (shapes : d.Shapes) (s : Setting) (tagged : Bool)
    (state : List Node × Bool) (valued : ∀ n ∈ state.1, n.Valued) :
    (templateStep d s tagged state).Gives fun o => ∀ next, o = some next →
      ∀ n ∈ next.1, n.Valued := by
  obtain ⟨parts, closed⟩ := state
  cases closed with
  | true => exact .pure nofun
  | false =>
      refine .bind (shapes _ .expression) fun part plain => .after fun seen => ?_
      have more : ∀ n ∈ parts ++ [part], n.Valued :=
        List.forall_mem_append.mpr ⟨valued, List.forall_mem_singleton.mpr plain⟩
      refine .ite (.after fun _ => ?_) ?_
      all_goals
        refine .after fun _ => .after fun closed => .pure ?_
        rintro _ ⟨⟩
        exact more

theorem template_plain (shapes : d.Shapes) (s : Setting) (tagged : Bool) :
    (template d s tagged).Gives Node.Plain := by
  refine .after fun start => .after fun closed => ?_
  refine .bind (.iterate (P := fun state => ∀ n ∈ state.1, n.Valued)
    (templateStep_valued shapes s tagged) _ nofun) fun (parts, closed) valued => ?_
  dsimp only
  refine .ite (.after fun _ => ?_) ?_
  all_goals exact .finish fun _ => Node.plain rfl rfl (valued_fits rfl valued)

theorem element_plain (shapes : d.Shapes) (s : Setting) : (element d s).Gives Node.Plain := by
  refine .after fun start => .after fun spread => .ite ?_ (shapes _ .assignment)
  refine .bind (shapes _ .assignment) fun value plain => ?_
  exact .finish fun _ => plain_of_plain rfl rfl (List.forall_mem_singleton.mpr plain)

theorem array_plain (shapes : d.Shapes) (s : Setting) : (array d s).Gives Node.Plain := by
  refine .after fun start => .after fun _ => .bind (elements_plain (element_plain shapes s) _) ?_
  exact fun (items, trailing) plain => .finish fun _ => plain_of_plain rfl rfl plain

theorem argumentList_plain (shapes : d.Shapes) (s : Setting) :
    (argumentList d s).Gives fun arguments => ∀ n ∈ arguments, n.Plain := by
  refine .after fun _ => .bind (.separated (element_plain shapes s) _) ?_
  exact fun (items, _) plain => .pure plain

theorem methodProperty_plain (shapes : d.Shapes) {start : Nat} {form : Node.Form}
    {async generator : Bool} {key : Node} (plain : key.Plain) :
    (methodProperty d start form async generator key).Gives Node.Plain := by
  refine .bind (methodFunction_plain shapes async generator) fun method plain' => .after fun _ => ?_
  exact .finish fun _ => plain_of_plain rfl rfl (plain_pair plain plain')

theorem shorthand_plain (shapes : d.Shapes) (s : Setting) : (shorthand d s).Gives Node.Plain := by
  refine .after fun start => .bind (reference_plain s) fun name plain => .after fun assigned => ?_
  refine .ite (.bind (shapes _ .assignment) fun value plain' => ?_) ?_
  · exact .finish fun _ => plain_of_plain rfl rfl (plain_pair plain plain')
  · exact .finish fun _ => plain_of_plain rfl rfl (List.forall_mem_singleton.mpr plain)

theorem keyedProperty_plain (shapes : d.Shapes) (s : Setting) :
    (keyedProperty d s).Gives Node.Plain := by
  refine .after fun start => .bind (propertyKey_plain shapes s) fun key plain => ?_
  refine .after fun method => .ite (methodProperty_plain shapes plain) (.after fun _ => ?_)
  refine .bind (shapes _ .assignment) fun value plain' => ?_
  exact .finish fun _ => plain_of_plain rfl rfl (plain_pair plain plain')

theorem accessorProperty_plain (shapes : d.Shapes) (s : Setting) (form : Node.Form) :
    (accessorProperty d s form).Gives Node.Plain := by
  refine .after fun start => .after fun _ => ?_
  exact .bind (propertyKey_plain shapes s) fun key plain => methodProperty_plain shapes plain

theorem generatorProperty_plain (shapes : d.Shapes) (s : Setting) :
    (generatorProperty d s).Gives Node.Plain := by
  refine .after fun start => .after fun async => .after fun generator => ?_
  exact .bind (propertyKey_plain shapes s) fun key plain => methodProperty_plain shapes plain

theorem property_plain (shapes : d.Shapes) (s : Setting) : (property d s).Gives Node.Plain := by
  refine .after fun t => ?_
  split
  · exact element_plain shapes s
  · exact generatorProperty_plain shapes s
  · refine .after fun next => .ite (generatorProperty_plain shapes s) ?_
    refine .ite (accessorProperty_plain shapes s _) (.ite (accessorProperty_plain shapes s _) ?_)
    exact .ite (keyedProperty_plain shapes s) (shorthand_plain shapes s)
  · exact keyedProperty_plain shapes s

theorem object_plain (shapes : d.Shapes) (s : Setting) : (object d s).Gives Node.Plain := by
  refine .after fun start => .after fun _ => .bind (.separated (property_plain shapes s) _) ?_
  exact fun (items, trailing) plain => .finish fun _ => plain_of_plain rfl rfl plain

theorem fieldRest_plain (shapes : d.Shapes) {start : Nat} {static : Bool} {key : Node}
    (plain : key.Plain) : (fieldRest d start static key).Gives Node.Plain := by
  refine .after fun assigned => .ite (.bind (shapes _ .assignment) fun value plain' => ?_) ?_
  · exact .after fun _ => .finish fun _ => plain_of_plain rfl rfl (plain_pair plain plain')
  · refine .after fun _ => .finish fun _ => ?_
    exact plain_of_plain rfl rfl (List.forall_mem_singleton.mpr plain)

theorem namedMember_plain (shapes : d.Shapes) (s : Setting) (start : Nat) (static : Bool) :
    (namedMember d s start static).Gives Node.Plain := by
  refine .after fun async => .after fun generator => .either fun form => ?_
  refine .bind (memberKey_plain shapes s) fun key plain => .after fun call => ?_
  refine .ite (.bind (methodFunction_plain shapes _ _) fun method plain' => ?_) ?_
  · exact .after fun _ => .finish fun _ => plain_of_plain rfl rfl (plain_pair plain plain')
  · exact fieldRest_plain shapes plain

theorem staticBlock_fits (shapes : d.Shapes) (start : Nat) :
    (staticBlock d start).Gives (Node.Fits .classBody) := by
  refine .after fun _ => .bind (statements_listed shapes _) fun body listed => .after fun _ => ?_
  refine .finish fun _ => ⟨Node.wellFormed rfl fun n member => ?_, rfl⟩
  exact (listed n member).fits rfl

theorem classMember_fits (shapes : d.Shapes) (s : Setting) :
    (classMember d s).Gives (Node.Fits .classBody) := by
  refine .after fun start => .after fun static => .after fun opens => ?_
  refine .ite (staticBlock_fits shapes start) ?_
  exact (namedMember_plain shapes s start static).mono fun n plain => plain.fits

theorem classBody_fits (shapes : d.Shapes) (s : Setting) :
    (classBody d s).Gives (Node.Fits .classDefinition) := by
  refine .after fun start => .after fun _ => .bind (.many (P := Node.Fits .classBody) ?_ _) ?_
  · refine .after fun _ => .after fun closed => .ite (.pure nofun) ?_
    refine .bind (classMember_fits shapes s) fun n fits => .pure ?_
    rintro _ ⟨⟩
    exact fits
  · exact fun members fit => .after fun _ => .finish fun _ => ⟨Node.wellFormed rfl fit, rfl⟩

theorem classDefinition_plain (shapes : d.Shapes) (s : Setting) (nameless : Bool) :
    (classDefinition d s nameless).Gives Node.Plain := by
  have rest {start : Nat} {name parent : List Node} (named : ∀ n ∈ name, n.Plain)
      (derived : ∀ n ∈ parent, n.Plain) : (do
      let body ← classBody d s
      finish start .classDefinition (name ++ parent ++ [body])).Gives Node.Plain := by
    refine .bind (classBody_fits shapes s) fun body fits => .finish fun _ => ?_
    have heads := List.forall_mem_append.mpr ⟨named, derived⟩
    refine Node.plain rfl rfl (List.forall_mem_append.mpr ⟨fun n member => ?_, ?_⟩)
    · exact (heads n member).fits
    · exact List.forall_mem_singleton.mpr fits
  have extended {start : Nat} {name : List Node} (named : ∀ n ∈ name, n.Plain) : (do
      let parent ←
        if ← acceptWord .extendsWord then pure [← d.read s .leftHand] else pure []
      let body ← classBody d s
      finish start .classDefinition (name ++ parent ++ [body])).Gives Node.Plain := by
    refine .after fun extended => .ite ?_ (rest named nofun)
    refine .bind (shapes s .leftHand) fun parent plain => ?_
    exact rest named (List.forall_mem_singleton.mpr plain)
  refine .after fun start => .after fun _ => .after fun t => .ite (extended nofun) ?_
  refine .bind (bindingName_plain s) fun name plain => ?_
  exact extended (List.forall_mem_singleton.mpr plain)

theorem plain_plain {kind : Node.Kind} (role : kind.role = .plain)
    (other : kind.isFunction = false) : (plain kind).Gives Node.Plain :=
  .after fun _ => leaf_plain role other

theorem parenthesized_plain (shapes : d.Shapes) (s : Setting) :
    (parenthesized d s).Gives Node.Plain := by
  refine .after fun start => .after fun _ => .bind (shapes _ .expression) fun inner valued => ?_
  refine .after fun _ => .finish fun _ => Node.plain rfl rfl ?_
  exact valued_fits rfl (List.forall_mem_singleton.mpr valued)

theorem regex_plain : regex.Gives Node.Plain := by
  refine .after fun _ => .after fun t => ?_
  split
  · exact plain_plain rfl rfl
  · exact .refuse

theorem primary_plain (shapes : d.Shapes) (s : Setting) : (primary d s).Gives Node.Plain := by
  refine .after fun t => ?_
  split
  · exact plain_plain rfl rfl
  · exact plain_plain rfl rfl
  · exact plain_plain rfl rfl
  · exact plain_plain rfl rfl
  · exact functionExpression_plain shapes s
  · exact classDefinition_plain shapes s true
  · exact .after fun next => .ite (functionExpression_plain shapes s) (reference_plain s)
  · exact reference_plain s
  · exact plain_plain rfl rfl
  · exact stringLiteral_plain
  · exact template_plain shapes s false
  · exact array_plain shapes s
  · exact object_plain shapes s
  · exact parenthesized_plain shapes s
  · exact regex_plain
  · exact regex_plain
  · exact .refuse

theorem parent_plain : parent.Gives Node.Plain := by
  refine .bind (plain_plain rfl rfl) fun node plain => .after fun t => ?_
  split
  · exact .pure plain
  · exact .pure plain
  · exact .pure plain
  · exact .refuse

theorem importExpression_plain (shapes : d.Shapes) (s : Setting) (calls : Bool) :
    (importExpression d s calls).Gives Node.Plain := by
  refine .after fun start => .after fun _ => .after fun dot => .ite ?_ ?_
  · exact .after fun _ => leaf_plain rfl rfl
  have called : (do
      expect .lparen
      let source ← d.read { s with inOperator := true } .assignment
      let options ←
        if (← accept .comma) && !(← sees .rparen) then
          let options ← d.read { s with inOperator := true } .assignment
          discard <| accept .comma
          pure [options]
        else pure []
      expect .rparen
      finish start .importCall (source :: options)).Gives Node.Plain := by
    refine .after fun _ => .bind (shapes _ .assignment) fun source plain => ?_
    have ending {options : List Node} (plain' : ∀ n ∈ options, n.Plain) : (do
        expect .rparen
        finish start .importCall (source :: options)).Gives Node.Plain :=
      .after fun _ => .finish fun _ =>
        plain_of_plain rfl rfl (List.forall_mem_cons.mpr ⟨plain, plain'⟩)
    refine .after fun comma => .after fun closed => .ite ?_ (ending nofun)
    refine .bind (shapes _ .assignment) fun options plain' => .after fun _ => ?_
    exact ending (List.forall_mem_singleton.mpr plain')
  exact .ite (.after fun _ => called) called

theorem construct_plain (shapes : d.Shapes) (s : Setting) : (construct d s).Gives Node.Plain := by
  refine .after fun start => .after fun _ => .after fun dot => .ite ?_ ?_
  · exact .after fun _ => leaf_plain rfl rfl
  refine .bind (shapes s .callee) fun callee plain => .after fun optional => ?_
  have called : (do
      let arguments ← if ← sees .lparen then argumentList d s else pure []
      finish start .construct (callee :: arguments)).Gives Node.Plain := by
    refine .after fun called => .ite (.bind (argumentList_plain shapes s) fun more plain' => ?_) ?_
    · exact .finish fun _ => plain_of_plain rfl rfl (List.forall_mem_cons.mpr ⟨plain, plain'⟩)
    · exact .finish fun _ => plain_of_plain rfl rfl (List.forall_mem_singleton.mpr plain)
  exact .ite (.after fun _ => called) called

theorem head_plain (shapes : d.Shapes) (s : Setting) (calls : Bool) :
    (head d s calls).Gives Node.Plain := by
  refine .after fun t => ?_
  split
  · exact construct_plain shapes s
  · exact parent_plain
  · exact importExpression_plain shapes s calls
  · exact primary_plain shapes s

theorem subscript_plain (shapes : d.Shapes) (s : Setting) (start : Nat) {target : Node}
    (plain : target.Plain) : (subscript d s start target).Gives Node.Plain := by
  refine .after fun _ => .bind (shapes _ .expression) fun key valued => .after fun _ => ?_
  refine .finish fun _ => Node.plain rfl rfl (List.forall_mem_cons.mpr ⟨plain.fits, ?_⟩)
  exact valued_fits rfl (List.forall_mem_singleton.mpr valued)

theorem optionalLink_plain (shapes : d.Shapes) (s : Setting) (start : Nat) {target : Node}
    (plain : target.Plain) : (optionalLink d s start target).Gives Node.Plain := by
  refine .after fun t => ?_
  split
  · refine .bind (argumentList_plain shapes s) fun arguments plain' => ?_
    exact .finish fun _ => plain_of_plain rfl rfl (List.forall_mem_cons.mpr ⟨plain, plain'⟩)
  · exact subscript_plain shapes s start plain
  · exact .fail
  · refine .bind memberName_plain fun key plain' => ?_
    exact .finish fun _ => plain_of_plain rfl rfl (plain_pair plain plain')

theorem link_plain (shapes : d.Shapes) (s : Setting) (start : Nat) (calls : Bool)
    (state : Node × Bool) (plain : state.1.Plain) :
    (link d s start calls state).Gives fun o => ∀ next, o = some next → next.1.Plain := by
  obtain ⟨target, chained⟩ := state
  have linked {r : Reading Node} {b : Bool} (gives : r.Gives Node.Plain) :
      (r >>= fun n => pure (some (n, b))).Gives fun o => ∀ next, o = some next → next.1.Plain := by
    refine .bind gives fun n plain => .pure ?_
    rintro _ ⟨⟩
    exact plain
  refine .after fun t => ?_
  split
  · refine .after fun _ => .bind memberName_plain fun key plain' => linked ?_
    exact .finish fun _ => plain_of_plain rfl rfl (plain_pair plain plain')
  · exact linked (subscript_plain shapes s start plain)
  · refine .ite (.pure nofun) (.after fun _ => ?_)
    exact linked (optionalLink_plain shapes s start plain)
  · refine .ite (.pure nofun) (.bind (argumentList_plain shapes s) fun more plain' => linked ?_)
    exact .finish fun _ => plain_of_plain rfl rfl (List.forall_mem_cons.mpr ⟨plain, plain'⟩)
  · have tagged : (do
        let quasi ← template d s true
        return some (← finish start .taggedTemplate [target, quasi], chained)).Gives
          fun o => ∀ next, o = some next → next.1.Plain := by
      refine .bind (template_plain shapes s true) fun quasi plain' => linked ?_
      exact .finish fun _ => plain_of_plain rfl rfl (plain_pair plain plain')
    exact .ite (.after fun _ => tagged) tagged
  · exact .pure nofun

theorem leftHand_plain (shapes : d.Shapes) (s : Setting) (calls : Bool) :
    (leftHand d s calls).Gives Node.Plain := by
  refine .after fun start => .bind (head_plain shapes s calls) fun base plain => ?_
  refine .bind (.iterate (P := fun state => state.1.Plain) (link_plain shapes s start calls) _
    plain) fun (target, chained) plain => .ite ?_ (.pure plain)
  exact .finish fun _ => plain_of_plain rfl rfl (List.forall_mem_singleton.mpr plain)

theorem postfixed_plain (shapes : d.Shapes) (s : Setting) : (postfixed d s).Gives Node.Plain := by
  refine .after fun start => .bind (leftHand_plain shapes s true) fun target plain => ?_
  refine .after fun t => .ite (.after fun _ => ?_) (.pure plain)
  exact .finish fun _ => plain_of_plain rfl rfl (List.forall_mem_singleton.mpr plain)

theorem unary_plain (shapes : d.Shapes) (s : Setting) : (unary d s).Gives Node.Plain := by
  have applied {start : Nat} {kind : Node.Kind} (role : kind.role = .plain)
      (other : kind.isFunction = false) : (do
      discard move
      let operand ← d.read s .unary
      finish start kind [operand]).Gives Node.Plain := by
    refine .after fun _ => .bind (shapes s .unary) fun operand plain => ?_
    exact .finish fun _ => plain_of_plain role other (List.forall_mem_singleton.mpr plain)
  refine .after fun t => ?_
  dsimp only
  split
  · exact applied rfl rfl
  · exact applied rfl rfl
  · exact applied rfl rfl
  · exact applied rfl rfl
  · exact applied rfl rfl
  · exact applied rfl rfl
  · refine .ite (applied rfl rfl) (.ite (applied rfl rfl) ?_)
    exact postfixed_plain shapes s
  · exact postfixed_plain shapes s

theorem operator?_plain {s : Setting} {t : Token} {strength : Nat} {kind : Node.Kind}
    (found : operator? s t = some (strength, kind)) :
    kind.role = .plain ∧ kind.isFunction = false := by
  unfold operator? at found
  split at found
  next sign _ =>
    obtain ⟨_, -, same⟩ := Option.map_eq_some_iff.mp found
    obtain ⟨-, rfl⟩ := Prod.mk.inj same
    split <;> exact ⟨rfl, rfl⟩
  · cases found
    exact ⟨rfl, rfl⟩
  · split at found <;> cases found
    exact ⟨rfl, rfl⟩
  · cases found

theorem binaryStep_plain (shapes : d.Shapes) (s : Setting) (start floor : Nat) (left : Node)
    (plain : left.Plain) :
    (binaryStep d s start floor left).Gives fun o => ∀ n, o = some n → n.Plain := by
  refine .after fun t => ?_
  split
  · exact .pure nofun
  next strength kind found =>
    obtain ⟨role, other⟩ := operator?_plain found
    refine .ite (.pure nofun) (.after fun _ => .bind (shapes s _) fun right plain' => ?_)
    refine .bind (Q := Node.Plain) (.finish fun _ => ?_) fun n plain => .pure ?_
    · exact plain_of_plain role other (plain_pair plain plain')
    · rintro _ ⟨⟩
      exact plain

theorem operand_plain (shapes : d.Shapes) (s : Setting) (floor : Nat) :
    (operand d s floor).Gives Node.Plain := by
  refine .after fun t => ?_
  split
  · exact .after fun next => .ite (plain_plain rfl rfl) .refuse
  · exact unary_plain shapes s

theorem binary_plain (shapes : d.Shapes) (s : Setting) (floor : Nat) :
    (binary d s floor).Gives Node.Plain := by
  refine .after fun start => .bind (operand_plain shapes s floor) fun first plain => ?_
  exact .iterate (binaryStep_plain shapes s start floor) _ plain

theorem conditional_plain (shapes : d.Shapes) (s : Setting) :
    (conditional d s).Gives Node.Plain := by
  refine .after fun start => .bind (binary_plain shapes s 0) fun test plain => ?_
  refine .after fun asked => .ite (.bind (shapes _ .assignment) fun yes plain₁ => ?_) (.pure plain)
  refine .after fun _ => .bind (shapes s .assignment) fun no plain₂ => .finish fun _ => ?_
  exact plain_of_plain rfl rfl (List.forall_mem_cons.mpr ⟨plain, plain_pair plain₁ plain₂⟩)

theorem yieldExpression_plain (shapes : d.Shapes) (s : Setting) :
    (yieldExpression d s).Gives Node.Plain := by
  refine .after fun start => .after fun _ => .after fun t => .either fun delegates => ?_
  refine .ite (leaf_plain rfl rfl) (.bind (shapes s .assignment) fun value plain => ?_)
  exact .finish fun _ => plain_of_plain rfl rfl (List.forall_mem_singleton.mpr plain)

theorem assignmentRest_plain (shapes : d.Shapes) (s : Setting) (start : Nat) {target : Node}
    (plain : target.Plain) : (assignmentRest d s start target).Gives Node.Plain := by
  refine .after fun t => ?_
  split
  · refine .ite (.after fun _ => .bind (shapes s .assignment) fun value plain' => ?_) (.pure plain)
    exact .finish fun _ => plain_of_plain rfl rfl (plain_pair plain plain')
  · exact .pure plain

theorem assignment_plain (shapes : d.Shapes) (s : Setting) :
    (assignment d s).Gives Node.Plain := by
  refine .after fun start => .after fun yields => .ite (yieldExpression_plain shapes s) ?_
  refine .bind (arrowFunction?_plain shapes s) fun o plain => ?_
  split
  · exact .pure (plain _ rfl)
  · refine .bind (conditional_plain shapes s) fun test plain => ?_
    exact assignmentRest_plain shapes s start plain

theorem expression_valued (shapes : d.Shapes) (s : Setting) :
    (expression d s).Gives Node.Valued := by
  refine .after fun start => .bind (shapes s .assignment) fun first plain => ?_
  refine .bind (.many (P := Node.Plain) (.after fun comma => .ite ?_ ?_) _)
    fun rest others => .ite (.pure plain.valued) (.finish fun _ => ?_)
  · refine .bind (shapes s .assignment) fun n plain => .pure ?_
    rintro _ ⟨⟩
    exact plain
  · exact .pure nofun
  · have all := List.forall_mem_cons.mpr ⟨plain, others⟩
    exact ⟨Node.wellFormed rfl fun n member => (all n member).fits, .inr rfl⟩

end AmdUnwrap.Grammar
