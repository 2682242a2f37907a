import AmdUnwrap.CommandLine.Arguments

namespace AmdUnwrap.CommandLine

/-- A list of arguments gives a parameter a value, in one argument or in the next. -/
def Gives (arguments : List Text) (parameter : Parameter) (value : Text) : Prop :=
  ∃ front text rest, arguments = front ++ text :: rest ∧
    (argument text = .parameter parameter (some value) ∨
      argument text = .parameter parameter none ∧ rest.head? = some value)

def jsonSwitch : Text := "--json".toList

namespace Gives

variable {text value : Text} {rest : List Text} {parameter : Parameter}

theorem nil : ¬ Gives [] parameter value := by
  rintro ⟨front, text, rest, whole, -⟩
  simp at whole

theorem cons : Gives (text :: rest) parameter value ↔
    (argument text = .parameter parameter (some value) ∨
      argument text = .parameter parameter none ∧ rest.head? = some value) ∨
    Gives rest parameter value := by
  constructor
  · rintro ⟨front, first, later, whole, given⟩
    cases front with
    | nil =>
        cases whole
        exact .inl given
    | cons other front =>
        cases whole
        exact .inr ⟨front, first, later, rfl, given⟩
  · rintro (given | ⟨front, first, later, rfl, given⟩)
    · exact ⟨[], text, rest, rfl, given⟩
    · exact ⟨text :: front, first, later, rfl, given⟩

theorem past (plain : ∀ p v, argument text ≠ .parameter p v) :
    Gives (text :: rest) parameter value ↔ Gives rest parameter value := by
  rw [cons, or_iff_right]
  rintro (given | ⟨given, -⟩) <;> exact plain _ _ given

end Gives

theorem argument_of_isValue {value : Text} (plain : isValue value = true) :
    argument value = .unknown := by
  unfold isValue at plain
  split at plain
  · cases plain
  next other =>
    unfold argument
    split
    · exact absurd rfl (other _ _)
    · exact absurd rfl (other _ _)
    · exact absurd rfl (other _ _)
    · rfl

theorem mem_of_lookup {α β : Type} [BEq α] [LawfulBEq α] {names : List (α × β)} {name : α} {b : β}
    (found : names.lookup name = some b) : (name, b) ∈ names := by
  obtain ⟨front, back, split, -⟩ := List.lookup_eq_some_iff.mp found
  rw [split]
  exact List.mem_append_right _ List.mem_cons_self

theorem afterEquals_dropWhile {text : Text} (none : afterEquals (text.dropWhile (· ≠ '=')) = none) :
    text.takeWhile (· ≠ '=') = text := by
  have parts := List.takeWhile_append_dropWhile (p := fun c => decide (c ≠ '=')) (l := text)
  have first := List.head?_dropWhile_not (fun c => decide (c ≠ '=')) text
  cases left : text.dropWhile (· ≠ '=') with
  | nil => rwa [left, List.append_nil] at parts
  | cons c rest =>
      rw [left] at none first
      have sign : c = '=' := by simpa using first
      rw [sign] at none
      cases none

theorem longArgument_json {name : Text} (read : longArgument name = .switch .json) :
    name = "json".toList := by
  have alone : ∀ p ∈ longNames, p.2 = .inr .json → p.1 = "json".toList := by decide
  unfold longArgument at read
  dsimp only at read
  split at read
  · cases read
  next switch found none =>
    cases read
    rw [← alone _ (mem_of_lookup found) rfl]
    exact (afterEquals_dropWhile none).symm
  · cases read

theorem shortArgument_json (name : Char) (text : Text) :
    shortArgument name text ≠ .switch .json := by
  have help : ∀ p ∈ shortNames, p.2 ≠ .inr .json := by decide
  intro read
  unfold shortArgument at read
  split at read
  · split at read <;> cases read
  next found =>
    cases read
    exact help _ (mem_of_lookup found) rfl
  · cases read

theorem argument_json {text : Text} : argument text = .switch .json ↔ text = jsonSwitch := by
  constructor
  · intro read
    unfold argument at read
    split at read
    · cases read
    · rw [longArgument_json read]
      rfl
    · exact absurd read (shortArgument_json _ _)
    · cases read
  · rintro rfl
    decide

/-- A run asks for what was given before and what the arguments give. -/
structure Follows (g : Given) (arguments : List Text) (i : Invocation) : Prop where
  input : ∀ path, i.input = some path ↔ g.input = some path ∨ Gives arguments .input path
  output : ∀ path, i.output = some path ↔ g.output = some path ∨ Gives arguments .output path
  json : i.json = true ↔ g.json = true ∨ jsonSwitch ∈ arguments

theorem set_some {g given : Given} {parameter : Parameter} {value : Text}
    (set : g.set parameter value = some given) :
    (∀ path, given.input = some path ↔
      g.input = some path ∨ parameter = .input ∧ value = path) ∧
    (∀ path, given.output = some path ↔
      g.output = some path ∨ parameter = .output ∧ value = path) ∧
    given.json = g.json := by
  have once {old : Option Text} (new : ¬ (old.isSome || value.isEmpty) = true) (path : Text) :
      some value = some path ↔ old = some path ∨ value = path := by
    cases old with
    | none => simp
    | some path => simp at new
  cases parameter with
  | input =>
      rw [Given.set] at set
      split at set
      · cases set
      next new =>
        cases set
        simpa using once new
  | output =>
      rw [Given.set] at set
      split at set
      · cases set
      next new =>
        cases set
        simpa using once new
  | mode =>
      rw [Given.set] at set
      split at set
      · cases set
      · obtain ⟨mode, -, rfl⟩ := Option.map_eq_some_iff.mp set
        simp
  | onUnresolved =>
      rw [Given.set] at set
      split at set
      · cases set
      · obtain ⟨policy, -, rfl⟩ := Option.map_eq_some_iff.mp set
        simp

namespace Follows

variable {g given : Given} {text value : Text} {rest arguments : List Text} {i : Invocation}
  {parameter : Parameter}

theorem done : Follows g [] g.invocation := by
  constructor <;> simp [Given.invocation, Gives.nil]

theorem past (plain : ∀ p v, argument text ≠ .parameter p v)
    (other : argument text ≠ .switch .json) (follows : Follows g rest i) :
    Follows g (text :: rest) i := by
  have report : jsonSwitch ∈ text :: rest ↔ jsonSwitch ∈ rest := by
    rw [List.mem_cons, or_iff_right]
    intro same
    exact other (argument_json.mpr same.symm)
  constructor
  · intro path
    rw [Gives.past plain]
    exact follows.input path
  · intro path
    rw [Gives.past plain]
    exact follows.output path
  · rw [report]
    exact follows.json

theorem reporting (switch : argument text = .switch .json)
    (follows : Follows { g with json := true } rest i) : Follows g (text :: rest) i := by
  have plain : ∀ p v, argument text ≠ .parameter p v := by simp [switch]
  constructor
  · intro path
    rw [Gives.past plain]
    exact follows.input path
  · intro path
    rw [Gives.past plain]
    exact follows.output path
  · rw [argument_json.mp switch, follows.json]
    simp

theorem set (same : g.set parameter value = some given) (follows : Follows given rest i)
    (gives : ∀ p v, Gives arguments p v ↔ parameter = p ∧ value = v ∨ Gives rest p v)
    (report : jsonSwitch ∈ arguments ↔ jsonSwitch ∈ rest) : Follows g arguments i := by
  obtain ⟨input, output, json⟩ := set_some same
  constructor
  · intro path
    rw [follows.input, input, gives, or_assoc]
  · intro path
    rw [follows.output, output, gives, or_assoc]
  · rw [follows.json, json, report]

theorem attached (read : argument text = .parameter parameter (some value))
    (same : g.set parameter value = some given) (follows : Follows given rest i) :
    Follows g (text :: rest) i := by
  apply follows.set same
  · intro p v
    rw [Gives.cons, read]
    simp
  · rw [List.mem_cons, or_iff_right]
    intro switch
    rw [argument_json.mpr switch.symm] at read
    cases read

theorem separate (read : argument text = .parameter parameter none)
    (plain : isValue value = true) (same : g.set parameter value = some given)
    (follows : Follows given rest i) : Follows g (text :: value :: rest) i := by
  have unknown := argument_of_isValue plain
  apply follows.set same
  · intro p v
    rw [Gives.cons, read, Gives.past (by simp [unknown])]
    simp
  · have first : jsonSwitch ≠ text := by
      intro switch
      rw [argument_json.mpr switch.symm] at read
      cases read
    have second : jsonSwitch ≠ value := by
      intro switch
      rw [argument_json.mpr switch.symm] at unknown
      cases unknown
    simp [first, second]

end Follows

theorem read_follows {g : Given} {arguments : List Text} {i : Invocation}
    (accepted : read g arguments = .run i) : Follows g arguments i := by
  fun_induction read g arguments with
  | case1 g =>
      cases accepted
      exact .done
  | case3 g text rest separator none =>
      cases accepted
      rw [List.isEmpty_iff.mp none]
      exact Follows.done.past (by simp [separator]) (by simp [separator])
  | case7 g text rest trace _ ih =>
      have rest := ih accepted
      exact .past (by simp [trace]) (by simp [trace]) ⟨rest.input, rest.output, rest.json⟩
  | case9 g text rest json _ ih => exact .reporting json (ih accepted)
  | case10 g text rest parameter value attached given set ih =>
      exact .attached attached set (ih accepted)
  | case13 g text parameter alone value rest plain given set ih =>
      exact .separate alone plain set (ih accepted)
  | _ => cases accepted

end AmdUnwrap.CommandLine
