import AmdUnwrap.Proofs.Syntax.Shape.Expression
import AmdUnwrap.Proofs.Syntax.Grammar.Statement

namespace AmdUnwrap.Grammar
open Reading

variable {d : Descent}

theorem declarator_plain (shapes : d.Shapes) (s : Setting) : (declarator d s).Gives Node.Plain := by
  refine .after fun start => .bind (shapes s .pattern) fun target plain => ?_
  refine .after fun assigned => .ite (.bind (shapes s .assignment) fun value plain' => ?_) ?_
  · exact .finish fun _ => plain_of_plain rfl rfl (plain_pair plain plain')
  · exact .finish fun _ => plain_of_plain rfl rfl (List.forall_mem_singleton.mpr plain)

theorem declarators_plain (shapes : d.Shapes) (s : Setting) :
    (declarators d s).Gives fun result => ∀ n ∈ result.2, n.Plain := by
  refine .after fun keyword => .bind (declarator_plain shapes s) fun first plain => ?_
  refine .bind (.many (P := Node.Plain) (.after fun comma => .ite ?_ ?_) _) fun rest others => ?_
  · refine .bind (declarator_plain shapes s) fun n plain => .pure ?_
    rintro _ ⟨⟩
    exact plain
  · exact .pure nofun
  · exact .pure (List.forall_mem_cons.mpr ⟨plain, others⟩)

theorem variableStatement_plain (shapes : d.Shapes) (s : Setting) :
    (variableStatement d s).Gives Node.Plain := by
  refine .after fun start => .bind (declarators_plain shapes s) fun (keyword, items) plain => ?_
  exact .after fun _ => .after fun _ => .finish fun _ => plain_of_plain rfl rfl plain

theorem listed_of_plain {kind : Node.Kind} {span : Span} {children : List Node}
    (role : kind.role = .statement) (plain : ∀ n ∈ children, n.Plain) :
    (Node.mk kind span children).Listed :=
  Node.listed role fun n member => (plain n member).fits

theorem moduleName_plain : moduleName.Gives Node.Plain := by
  refine .after fun t => ?_
  split
  · exact plain_plain rfl rfl
  · exact stringLiteral_plain

theorem requestAttribute_plain : requestAttribute.Gives Node.Plain := by
  refine .after fun start => .bind moduleName_plain fun key plain => .after fun _ => ?_
  refine .bind stringLiteral_plain fun value plain' => ?_
  exact .finish fun _ => plain_of_plain rfl rfl (plain_pair plain plain')

theorem attributes_plain : (attributes d).Gives fun items => ∀ n ∈ items, n.Plain := by
  refine .after fun given => .ite (.after fun _ => ?_) (.pure nofun)
  exact .bind (.separated requestAttribute_plain _) fun (items, _) plain => .pure plain

theorem request_plain : (do
    let source ← stringLiteral
    return source :: (← attributes d)).Gives fun items => ∀ n ∈ items, n.Plain :=
  .bind stringLiteral_plain fun _ plain => .bind attributes_plain fun _ others =>
    .pure (List.forall_mem_cons.mpr ⟨plain, others⟩)

theorem fromClause_plain : (fromClause d).Gives fun items => ∀ n ∈ items, n.Plain :=
  .after fun _ => request_plain

theorem importSpecifier_plain (s : Setting) : (importSpecifier s).Gives Node.Plain := by
  refine .after fun start => .after fun next => .ite ?_ ?_
  · refine .bind moduleName_plain fun name plain => .after fun _ => ?_
    refine .bind (bindingName_plain s) fun target plain' => ?_
    exact .finish fun _ => plain_of_plain rfl rfl (plain_pair plain plain')
  · refine .bind (bindingName_plain s) fun target plain => ?_
    exact .finish fun _ => plain_of_plain rfl rfl (List.forall_mem_singleton.mpr plain)

theorem importNames_plain (s : Setting) :
    (importNames d s).Gives fun items => ∀ n ∈ items, n.Plain := by
  refine .after fun start => .after fun namespaced => .ite (.after fun _ => ?_) (.after fun _ => ?_)
  · refine .bind (bindingName_plain s) fun target plain => ?_
    refine .bind (Q := Node.Plain) (.finish fun _ => ?_) fun n plain => .pure ?_
    · exact plain_of_plain rfl rfl (List.forall_mem_singleton.mpr plain)
    · exact List.forall_mem_singleton.mpr plain
  · exact .bind (.separated (importSpecifier_plain s) _) fun (items, _) plain => .pure plain

theorem importClause_plain (s : Setting) :
    (importClause d s).Gives fun items => ∀ n ∈ items, n.Plain := by
  refine .after fun t => .ite (.after fun start => ?_) (importNames_plain s)
  refine .bind (bindingName_plain s) fun target plain => ?_
  refine .bind (Q := Node.Plain) (.finish fun _ => ?_) fun first plain => ?_
  · exact plain_of_plain rfl rfl (List.forall_mem_singleton.mpr plain)
  · refine .after fun comma => .ite (.bind (importNames_plain s) fun names others => .pure ?_) ?_
    · exact List.forall_mem_cons.mpr ⟨plain, others⟩
    · exact .pure (List.forall_mem_singleton.mpr plain)

theorem importDeclaration_listed (s : Setting) : (importDeclaration d s).Gives Node.Listed := by
  have ending {start : Nat} {parts : List Node} (plain : ∀ n ∈ parts, n.Plain) : (do
      semicolon
      finish start .importDeclaration parts).Gives Node.Listed :=
    .after fun _ => .finish fun _ => listed_of_plain rfl plain
  refine .after fun start => .after fun _ => .after fun t => ?_
  dsimp only
  split
  · refine .bind stringLiteral_plain fun source plain => ?_
    refine .bind attributes_plain fun more others => ?_
    exact ending (List.forall_mem_cons.mpr ⟨plain, others⟩)
  · refine .bind (importClause_plain s) fun names plain => ?_
    refine .bind fromClause_plain fun from_ others => ?_
    exact ending (List.forall_mem_append.mpr ⟨plain, others⟩)

theorem exportSpecifier_plain : exportSpecifier.Gives Node.Plain := by
  refine .after fun start => .bind moduleName_plain fun name plain => ?_
  refine .after fun renamed => .ite ?_ ?_
  · refine .bind moduleName_plain fun outside plain' => ?_
    exact .finish fun _ => plain_of_plain rfl rfl (plain_pair plain plain')
  · exact .finish fun _ => plain_of_plain rfl rfl (List.forall_mem_singleton.mpr plain)

theorem checkedNames_listed {start : Nat} {items source : List Node}
    (plain : ∀ n ∈ items, n.Plain) (others : ∀ n ∈ source, n.Plain) : (do
      if source.isEmpty then
        match items.find? (!namesVariable ·) with
        | some item => fail .unexpectedToken item.span.start
        | none => pure ()
      semicolon
      finish start .exportNamed (items ++ source)).Gives Node.Listed := by
  have named : (do
      semicolon
      finish start .exportNamed (items ++ source)).Gives Node.Listed :=
    .after fun _ => .finish fun _ =>
      listed_of_plain rfl (List.forall_mem_append.mpr ⟨plain, others⟩)
  refine .ite ?_ named
  split
  · exact .after fun _ => named
  · exact named

theorem exportNames_listed (start : Nat) : (exportNames d start).Gives Node.Listed := by
  refine .after fun _ => .bind (.separated exportSpecifier_plain _) fun (items, _) plain => ?_
  refine .after fun seen => .ite (.bind fromClause_plain fun source others => ?_) ?_
  · exact checkedNames_listed plain others
  · exact checkedNames_listed plain (List.forall_mem_nil _)

theorem exportEverything_listed (start : Nat) : (exportEverything d start).Gives Node.Listed := by
  have ending {name : List Node} (plain : ∀ n ∈ name, n.Plain) : (do
      let source ← fromClause d
      semicolon
      finish start .exportAll (name ++ source)).Gives Node.Listed :=
    .bind fromClause_plain fun source plain' => .after fun _ => .finish fun _ =>
      listed_of_plain rfl (List.forall_mem_append.mpr ⟨plain, plain'⟩)
  refine .after fun _ => .after fun named => .ite ?_ (ending nofun)
  exact .bind moduleName_plain fun name plain => ending (List.forall_mem_singleton.mpr plain)

theorem wrapped_listed {r : Reading Node} {start : Nat} {kind : Node.Kind}
    (role : kind.role = .statement) (gives : r.Gives Node.Plain) : (do
      let inner ← r
      finish start kind [inner]).Gives Node.Listed :=
  .bind gives fun _ plain => .finish fun _ =>
    listed_of_plain role (List.forall_mem_singleton.mpr plain)

theorem exportDefault_listed (shapes : d.Shapes) (s : Setting) (start : Nat) :
    (exportDefault d s start).Gives Node.Listed := by
  refine .after fun t => .after fun next => .ite ?_ (.ite ?_ ?_)
  · exact wrapped_listed rfl (functionDeclaration_plain shapes s true)
  · exact wrapped_listed rfl (classDefinition_plain shapes s true)
  · refine .bind (shapes s .assignment) fun value plain => .after fun _ => .finish fun _ => ?_
    exact listed_of_plain rfl (List.forall_mem_singleton.mpr plain)

theorem exportDeclaration_listed (shapes : d.Shapes) (s : Setting) :
    (exportDeclaration d s).Gives Node.Listed := by
  refine .after fun start => .after fun _ => .after fun t => ?_
  split
  · exact exportEverything_listed start
  · exact exportNames_listed start
  · exact .after fun _ => exportDefault_listed shapes s start
  · exact wrapped_listed rfl (variableStatement_plain shapes s)
  · exact wrapped_listed rfl (variableStatement_plain shapes s)
  · exact wrapped_listed rfl (variableStatement_plain shapes s)
  · exact wrapped_listed rfl (functionDeclaration_plain shapes s false)
  · exact wrapped_listed rfl (classDefinition_plain shapes s false)
  · refine .after fun next => .ite ?_ .refuse
    exact wrapped_listed rfl (functionDeclaration_plain shapes s false)
  · exact .refuse

theorem listed_fits {kind : Node.Kind} (admits : kind.admits .statement = true) {body : List Node}
    (listed : ∀ n ∈ body, n.Listed) : ∀ n ∈ body, n.Fits kind :=
  fun n member => (listed n member).fits admits

theorem block_listed (shapes : d.Shapes) (s : Setting) : (block d s).Gives Node.Listed := by
  refine .after fun start => .after fun _ => ?_
  refine .bind (statements_listed shapes s) fun body listed => ?_
  exact .after fun _ => .finish fun _ => Node.listed rfl (listed_fits rfl listed)

theorem condition_valued (shapes : d.Shapes) (s : Setting) : (condition d s).Gives Node.Valued := by
  refine .after fun _ => .bind (shapes s .expression) fun test valued => .after fun _ => ?_
  exact .pure valued

theorem expressionStatement_listed (shapes : d.Shapes) (s : Setting) :
    (expressionStatement d s).Gives Node.Listed := by
  refine .after fun start => .bind (shapes s .expression) fun value valued => ?_
  have plain : ∀ n ∈ [value], n.Fits .expressionStatement :=
    List.forall_mem_singleton.mpr (valued.fits rfl)
  have ending : (do
      semicolon
      finish start .expressionStatement [value]).Gives Node.Listed :=
    .after fun _ => .finish fun _ => Node.listed rfl plain
  dsimp only
  split
  next name span _ =>
    refine .after fun colon => .ite ?_ ending
    refine .bind (shapes s (.statement true)) fun body listed => .finish fun _ => ?_
    have label : (Node.mk (.label name) span []).Plain := Node.plain rfl rfl nofun
    refine Node.listed rfl (List.forall_mem_cons.mpr ⟨label.fits, ?_⟩)
    exact List.forall_mem_singleton.mpr (listed.fits rfl)
  · exact ending

theorem functionStatement_plain (shapes : d.Shapes) (s : Setting) (alone : Bool) :
    (functionStatement d s alone).Gives Node.Plain := by
  refine .bind (functionDeclaration_plain shapes s false) fun function plain => ?_
  split
  · exact .pure plain
  · exact .fail
  · exact .pure plain

theorem headed_listed {kind : Node.Kind} {span : Span} {test : Node} {bodies : List Node}
    (role : kind.role = .statement) (sequence : kind.admits .sequence = true)
    (statement : kind.admits .statement = true) (valued : test.Valued)
    (listed : ∀ n ∈ bodies, n.Listed) : (Node.mk kind span (test :: bodies)).Listed :=
  Node.listed role (List.forall_mem_cons.mpr
    ⟨valued.fits sequence, listed_fits statement listed⟩)

theorem ifStatement_listed (shapes : d.Shapes) (s : Setting) :
    (ifStatement d s).Gives Node.Listed := by
  refine .after fun start => .after fun _ => .bind (condition_valued shapes s) fun test valued => ?_
  refine .bind (shapes s (.statement true)) fun yes listed => .after fun otherwise => .ite ?_ ?_
  · refine .bind (shapes s (.statement true)) fun no listed' => .finish fun _ => ?_
    exact headed_listed rfl rfl rfl valued
      (List.forall_mem_cons.mpr ⟨listed, List.forall_mem_singleton.mpr listed'⟩)
  · refine .finish fun _ => ?_
    exact headed_listed rfl rfl rfl valued (List.forall_mem_singleton.mpr listed)

theorem headedStatement_listed (shapes : d.Shapes) (s : Setting) {kind : Node.Kind}
    (role : kind.role = .statement) (sequence : kind.admits .sequence = true)
    (statement : kind.admits .statement = true) :
    (headedStatement d s kind).Gives Node.Listed := by
  refine .after fun start => .after fun _ => .bind (condition_valued shapes s) fun test valued => ?_
  refine .bind (shapes s (.statement true)) fun body listed => .finish fun _ => ?_
  exact headed_listed role sequence statement valued (List.forall_mem_singleton.mpr listed)

theorem doStatement_listed (shapes : d.Shapes) (s : Setting) :
    (doStatement d s).Gives Node.Listed := by
  refine .after fun start => .after fun _ => ?_
  refine .bind (shapes s (.statement true)) fun body listed => ?_
  refine .after fun _ => .bind (condition_valued shapes s) fun test valued => .after fun _ => ?_
  refine .finish fun _ => Node.listed rfl (List.forall_mem_cons.mpr ⟨listed.fits rfl, ?_⟩)
  exact List.forall_mem_singleton.mpr (valued.fits rfl)

theorem forEach_listed (shapes : d.Shapes) (s : Setting) {start : Nat} {awaits : Bool}
    {target : Node} (valued : target.Valued) :
    (forEach d s start awaits target).Gives Node.Listed := by
  have looped {kind : Node.Kind} {source body : Node} {span : Span}
      (role : kind.role = .statement) (sequence : kind.admits .sequence = true)
      (statement : kind.admits .statement = true) (valued' : source.Valued)
      (listed : body.Listed) : (Node.mk kind span [target, source, body]).Listed := by
    refine Node.listed role (List.forall_mem_cons.mpr ⟨valued.fits sequence, ?_⟩)
    exact List.forall_mem_cons.mpr
      ⟨valued'.fits sequence, List.forall_mem_singleton.mpr (listed.fits statement)⟩
  refine .after fun keys => .ite (.after fun _ => ?_) (.after fun _ => ?_)
  · refine .bind (shapes s .expression) fun source valued' => .after fun _ => ?_
    refine .bind (shapes s (.statement true)) fun body listed => ?_
    exact .finish fun _ => looped rfl rfl rfl valued' listed
  · refine .bind (shapes s .assignment) fun source plain => .after fun _ => ?_
    refine .bind (shapes s (.statement true)) fun body listed => ?_
    exact .finish fun _ => looped rfl rfl rfl plain.valued listed

theorem optionalExpression_valued (shapes : d.Shapes) (s : Setting) (close : Punct) :
    (optionalExpression d s close).Gives fun parts => ∀ n ∈ parts, n.Valued := by
  refine .after fun closed => .ite (.pure nofun) ?_
  refine .bind (shapes s .expression) fun value valued => .after fun _ => ?_
  exact .pure (List.forall_mem_singleton.mpr valued)

theorem forSteps_listed (shapes : d.Shapes) (s : Setting) {start : Nat} {awaits : Bool}
    {opening : List Node} (valued : ∀ n ∈ opening, n.Valued) :
    (forSteps d s start awaits opening).Gives Node.Listed := by
  have steps : (do
      expect .semicolon
      let test ← optionalExpression d s .semicolon
      let step ← optionalExpression d s .rparen
      let body ← d.read s (.statement true)
      finish start .forStatement (opening ++ test ++ step ++ [body])).Gives Node.Listed := by
    refine .after fun _ => .bind (optionalExpression_valued shapes s _) fun test valued₁ => ?_
    refine .bind (optionalExpression_valued shapes s _) fun step valued₂ => ?_
    refine .bind (shapes s (.statement true)) fun body listed => .finish fun _ => ?_
    have heads : ∀ n ∈ opening ++ test ++ step, n.Valued :=
      List.forall_mem_append.mpr ⟨List.forall_mem_append.mpr ⟨valued, valued₁⟩, valued₂⟩
    refine Node.listed rfl (List.forall_mem_append.mpr ⟨valued_fits rfl heads, ?_⟩)
    exact List.forall_mem_singleton.mpr (listed.fits rfl)
  exact .ite (.after fun _ => steps) steps

theorem forDeclaration_listed (shapes : d.Shapes) (s : Setting) (start : Nat) (awaits : Bool) :
    (forDeclaration d s start awaits).Gives Node.Listed := by
  refine .after fun opening => .bind (declarators_plain shapes _) fun (keyword, items) plain => ?_
  refine .bind (Q := Node.Plain) (.finish fun _ => plain_of_plain rfl rfl plain) ?_
  refine fun declaration plain => .after fun each => .ite ?_ (.after fun _ => ?_)
  · exact forEach_listed shapes s plain.valued
  · exact forSteps_listed shapes s (List.forall_mem_singleton.mpr plain.valued)

theorem forExpression_listed (shapes : d.Shapes) (s : Setting) (start : Nat) (awaits : Bool) :
    (forExpression d s start awaits).Gives Node.Listed := by
  refine .after fun first => .bind (shapes _ .expression) fun opening valued => ?_
  refine .after fun each => .ite (.after fun values => .ite (.after fun _ => ?_) ?_) ?_
  · exact forEach_listed shapes s valued
  · exact forEach_listed shapes s valued
  · exact forSteps_listed shapes s (List.forall_mem_singleton.mpr valued)

theorem forHead_listed (shapes : d.Shapes) (s : Setting) {start : Nat} {awaits : Bool} : (do
    expect .lparen
    match (← current).kind with
    | .punct .semicolon => forSteps d s start awaits []
    | .word _ (some .varWord) | .word _ (some .constWord) => forDeclaration d s start awaits
    | .word _ (some .letWord) =>
      if opensBinding (← ahead) then forDeclaration d s start awaits
      else forExpression d s start awaits
    | _ => forExpression d s start awaits).Gives Node.Listed := by
  refine .after fun _ => .after fun t => ?_
  split
  · exact forSteps_listed shapes s (List.forall_mem_nil _)
  · exact forDeclaration_listed shapes s start awaits
  · exact forDeclaration_listed shapes s start awaits
  · refine .after fun next => .ite (forDeclaration_listed shapes s start awaits) ?_
    exact forExpression_listed shapes s start awaits
  · exact forExpression_listed shapes s start awaits

theorem forStatement_listed (shapes : d.Shapes) (s : Setting) :
    (forStatement d s).Gives Node.Listed := by
  refine .after fun start => .after fun _ => ?_
  exact .ite (.after fun _ => forHead_listed shapes s) (forHead_listed shapes s)

theorem jumpStatement_listed (s : Setting) {kind : Node.Kind} (role : kind.role = .statement) :
    (jumpStatement s kind).Gives Node.Listed := by
  refine .after fun start => .after fun _ => .after fun t => ?_
  have ending {target : List Node} (plain : ∀ n ∈ target, n.Plain) : (do
      semicolon
      finish start kind target).Gives Node.Listed :=
    .after fun _ => .finish fun _ => listed_of_plain role plain
  refine .ite (.after fun name => .bind (plain_plain rfl rfl) fun target plain => ?_) (ending nofun)
  exact ending (List.forall_mem_singleton.mpr plain)

theorem returnStatement_listed (shapes : d.Shapes) (s : Setting) :
    (returnStatement d s).Gives Node.Listed := by
  refine .after fun start => ?_
  have returned : (do
      discard move
      let value ←
        if endsStatement (← current) then pure [] else pure [← d.read s .expression]
      semicolon
      finish start .returnStatement value).Gives Node.Listed := by
    have ending {value : List Node} (valued : ∀ n ∈ value, n.Valued) : (do
        semicolon
        finish start .returnStatement value).Gives Node.Listed :=
      .after fun _ => .finish fun _ => Node.listed rfl (valued_fits rfl valued)
    refine .after fun _ => .after fun t => .ite (ending nofun) ?_
    exact .bind (shapes s .expression) fun value valued =>
      ending (List.forall_mem_singleton.mpr valued)
  exact .ite (.after fun _ => returned) returned

theorem throwStatement_listed (shapes : d.Shapes) (s : Setting) :
    (throwStatement d s).Gives Node.Listed := by
  refine .after fun start => .after fun _ => .after fun t => ?_
  have thrown : (do
      let value ← d.read s .expression
      semicolon
      finish start .throwStatement [value]).Gives Node.Listed := by
    refine .bind (shapes s .expression) fun value valued => .after fun _ => .finish fun _ => ?_
    exact Node.listed rfl (List.forall_mem_singleton.mpr (valued.fits rfl))
  exact .ite (.after fun _ => thrown) thrown

theorem caseBody_fits (shapes : d.Shapes) (s : Setting) {start : Nat} {test : List Node}
    (valued : ∀ n ∈ test, n.Valued) : (do
      expect .colon
      let body ← many (do
        match (← current).kind with
        | .punct .rbrace | .eof | .word _ (some .caseWord) | .word _ (some .defaultWord) =>
          return none
        | _ => return some (← d.read s (.statement false))) d.bound
      finish start .switchCase (test ++ body)).Gives (Node.Fits .switchStatement) := by
  refine .after fun _ => .bind (.many (P := Node.Listed) (.after fun t => ?_) _) ?_
  · split
    · exact .pure (by rintro _ ⟨⟩)
    · exact .pure (by rintro _ ⟨⟩)
    · exact .pure (by rintro _ ⟨⟩)
    · exact .pure (by rintro _ ⟨⟩)
    · exact some_listed (shapes s (.statement false))
  · refine fun body listed => .finish fun _ => ⟨Node.wellFormed rfl ?_, rfl⟩
    exact List.forall_mem_append.mpr ⟨valued_fits rfl valued, listed_fits rfl listed⟩

theorem switchCase_fits (shapes : d.Shapes) (s : Setting) :
    (switchCase d s).Gives (Node.Fits .switchStatement) := by
  refine .after fun start => .after fun tested => ?_
  refine .ite ?_ (.after fun _ => caseBody_fits shapes s (List.forall_mem_nil _))
  refine .bind (shapes s .expression) fun test valued => ?_
  exact caseBody_fits shapes s (List.forall_mem_singleton.mpr valued)

theorem switchStatement_listed (shapes : d.Shapes) (s : Setting) :
    (switchStatement d s).Gives Node.Listed := by
  refine .after fun start => .after fun _ => ?_
  refine .bind (condition_valued shapes s) fun value valued => .after fun _ => ?_
  refine .bind (.many (P := Node.Fits .switchStatement) (.after fun closed => ?_) _) ?_
  · refine .ite (.pure nofun) (.bind (switchCase_fits shapes s) fun n fits => .pure ?_)
    rintro _ ⟨⟩
    exact fits
  · refine fun cases fit => .after fun _ => .finish fun _ => Node.listed rfl ?_
    exact List.forall_mem_cons.mpr ⟨valued.fits rfl, fit⟩

theorem catchClause_fits (shapes : d.Shapes) (s : Setting) :
    (catchClause d s).Gives (Node.Fits .tryStatement) := by
  refine .after fun start => .after fun _ => .after fun bound => ?_
  have ending {target : List Node} (plain : ∀ n ∈ target, n.Plain) : (do
      let body ← block d s
      finish start .catchClause (target ++ [body])).Gives (Node.Fits .tryStatement) := by
    refine .bind (block_listed shapes s) fun body listed => .finish fun _ => ?_
    refine ⟨Node.wellFormed rfl (List.forall_mem_append.mpr ⟨fun n member => ?_, ?_⟩), rfl⟩
    · exact (plain n member).fits
    · exact List.forall_mem_singleton.mpr (listed.fits rfl)
  refine .ite ?_ (ending nofun)
  refine .bind (shapes s .pattern) fun target plain => .after fun _ => ?_
  exact ending (List.forall_mem_singleton.mpr plain)

theorem tryStatement_listed (shapes : d.Shapes) (s : Setting) :
    (tryStatement d s).Gives Node.Listed := by
  refine .after fun start => .after fun _ => .bind (block_listed shapes s) fun body listed => ?_
  have ending {handler finalizer : List Node} (fit : ∀ n ∈ handler, n.Fits .tryStatement)
      (last : ∀ n ∈ finalizer, n.Listed) : (do
      if handler.isEmpty && finalizer.isEmpty then fail .missingHandler (← here)
      finish start .tryStatement (body :: handler ++ finalizer)).Gives Node.Listed := by
    have whole : (finish start .tryStatement (body :: handler ++ finalizer)).Gives Node.Listed := by
      refine .finish fun _ => Node.listed rfl (List.forall_mem_append.mpr ⟨?_, ?_⟩)
      · exact List.forall_mem_cons.mpr ⟨listed.fits rfl, fit⟩
      · exact listed_fits rfl last
    exact .ite (.after fun _ => .after fun _ => whole) whole
  have finalized {handler : List Node} (fit : ∀ n ∈ handler, n.Fits .tryStatement) : (do
      let finalizer ← if ← acceptWord .finallyWord then pure [← block d s] else pure []
      if handler.isEmpty && finalizer.isEmpty then fail .missingHandler (← here)
      finish start .tryStatement (body :: handler ++ finalizer)).Gives Node.Listed := by
    refine .after fun last => .ite ?_ (ending fit nofun)
    exact .bind (block_listed shapes s) fun body listed =>
      ending fit (List.forall_mem_singleton.mpr listed)
  refine .after fun caught => .ite ?_ (finalized nofun)
  exact .bind (catchClause_fits shapes s) fun clause fits =>
    finalized (List.forall_mem_singleton.mpr fits)

theorem declaration_listed {r : Reading Node} (gives : r.Gives Node.Plain) (alone : Bool) :
    (declaration alone r).Gives Node.Listed :=
  .ite (.after fun _ => .fail) (gives.mono fun _ plain => plain.listed)

theorem letStatement_listed (shapes : d.Shapes) (s : Setting) (alone : Bool) :
    (letStatement d s alone).Gives Node.Listed := by
  refine .after fun next => .ite (expressionStatement_listed shapes s) (.ite ?_ ?_)
  · exact expressionStatement_listed shapes s
  · exact declaration_listed (variableStatement_plain shapes s) alone

theorem importStatement_listed (shapes : d.Shapes) (s : Setting) :
    (importStatement d s).Gives Node.Listed :=
  .after fun _ => .ite (expressionStatement_listed shapes s) (importDeclaration_listed s)

theorem wordStatement_listed (shapes : d.Shapes) (s : Setting) (alone : Bool) (keyword : Keyword) :
    (wordStatement d s alone keyword).Gives Node.Listed := by
  have function : (functionStatement d s alone).Gives Node.Listed :=
    (functionStatement_plain shapes s alone).mono fun _ plain => plain.listed
  unfold wordStatement
  split
  · exact (variableStatement_plain shapes s).mono fun _ plain => plain.listed
  · exact declaration_listed (variableStatement_plain shapes s) alone
  · exact letStatement_listed shapes s alone
  · exact function
  · exact .after fun _ => .ite function (expressionStatement_listed shapes s)
  · exact declaration_listed (classDefinition_plain shapes s false) alone
  · exact ifStatement_listed shapes s
  · exact forStatement_listed shapes s
  · exact headedStatement_listed shapes s rfl rfl rfl
  · exact headedStatement_listed shapes s rfl rfl rfl
  · exact doStatement_listed shapes s
  · exact jumpStatement_listed s rfl
  · exact jumpStatement_listed s rfl
  · exact returnStatement_listed shapes s
  · exact throwStatement_listed shapes s
  · exact switchStatement_listed shapes s
  · exact tryStatement_listed shapes s
  · exact .after fun _ => .after fun _ => .after fun _ => .finish fun _ => listed_of_plain rfl nofun
  · exact importStatement_listed shapes s
  · exact exportDeclaration_listed shapes s
  · exact expressionStatement_listed shapes s

theorem statement_listed (shapes : d.Shapes) (s : Setting) (alone : Bool) :
    (statement d s alone).Gives Node.Listed := by
  refine .after fun t => ?_
  split
  · exact block_listed shapes s
  · exact .after fun _ => .finish fun _ => listed_of_plain rfl nofun
  · exact wordStatement_listed shapes s alone _
  · exact expressionStatement_listed shapes s

end AmdUnwrap.Grammar

namespace AmdUnwrap
open Reading Grammar

theorem descend_shapes (depth : Nat) : Descent.Shapes ⟨depth, descend depth⟩ := by
  induction depth with
  | zero => exact fun s goal => .refuse
  | succ depth ih =>
      intro s goal
      cases goal with
      | statement alone => exact statement_listed ih s alone
      | expression => exact expression_valued ih s
      | assignment => exact assignment_plain ih s
      | binary floor => exact binary_plain ih s floor
      | unary => exact unary_plain ih s
      | leftHand => exact leftHand_plain ih s true
      | callee => exact leftHand_plain ih s false
      | pattern => exact pattern_plain ih s

theorem programBody_listed {d : Descent} (shapes : d.Shapes) (s : Setting) :
    (programBody d s).Gives fun body => ∀ n ∈ body, n.Listed := by
  refine .bind (prologue_listed shapes s _) fun opening first => ?_
  refine .bind (statements_listed shapes s) fun rest later => .after fun t => ?_
  split
  · exact .pure (List.forall_mem_append.mpr ⟨first, later⟩)
  · exact .refuse

theorem readProgram_wellFormed {mode : Mode} {text : Text} {root : Node}
    (parsed : readProgram mode text = .ok root) : root.WellFormed := by
  obtain ⟨body, c, rfl, read⟩ := readProgram_body parsed
  have listed := programBody_listed (descend_shapes _) _ _ _ _ read
  exact Node.wellFormed rfl (listed_fits rfl listed)

end AmdUnwrap
