import Mathlib.Data.List.Forall2
import AmdUnwrap.Report.Json

/-!
A reader of JSON documents, and that it reads what is printed: first the lexemes of a text, one
character at a time, then the document that they spell.
-/

namespace AmdUnwrap.Json

theorem induction {P : Json → Prop} (number : ∀ n, P (.number n)) (text : ∀ t, P (.text t))
    (array : ∀ items, (∀ item ∈ items, P item) → P (.array items))
    (object : ∀ fields, (∀ field ∈ fields, P field.2) → P (.object fields)) (json : Json) :
    P json := by
  refine @Json.rec P (fun items => ∀ item ∈ items, P item)
    (fun fields => ∀ field ∈ fields, P field.2) (fun field => P field.2)
    number text array object ?_ ?_ ?_ ?_ ?_ json
  · simp
  · intro item items one all
    exact List.forall_mem_cons.mpr ⟨one, all⟩
  · simp
  · intro field fields one all
    exact List.forall_mem_cons.mpr ⟨one, all⟩
  · intro name value one
    exact one

inductive Lexeme where
  | openArray
  | closeArray
  | openObject
  | closeObject
  | colon
  | comma
  | number (n : Nat)
  | text (content : Text)
  deriving DecidableEq, Repr

/-- What has been read of a lexeme. -/
inductive Reading where
  | between
  | digits (n : Nat)
  | quoted (content : Text)
  | escaped (content : Text)
  | code (content : Text) (high : Option Nat) (left n : Nat)
  | half (content : Text) (high : Nat)
  | halfEscaped (content : Text) (high : Nat)
  deriving DecidableEq, Repr

def spaces : List Char := [' ', '\t', '\n', '\r']

def marks : List (Char × Lexeme) :=
  [('[', .openArray), (']', .closeArray), ('\x7b', .openObject), ('\x7d', .closeObject),
    (':', .colon), (',', .comma)]

def escapes : List (Char × Char) :=
  [('\x22', '\x22'), ('\\', '\\'), ('/', '/'), ('b', '\x08'), ('f', '\x0c'), ('n', '\n'),
    ('r', '\r'), ('t', '\t')]

def digitValue (c : Char) : Nat := c.toNat - '0'.toNat

def hexValue (c : Char) : Option Nat :=
  if c.isDigit then some (digitValue c)
  else if 'a' ≤ c ∧ c ≤ 'f' then some (10 + (c.toNat - 'a'.toNat))
  else if 'A' ≤ c ∧ c ≤ 'F' then some (10 + (c.toNat - 'A'.toNat))
  else none

/-- Goes on behind the digits of an escape. A surrogate is half a character: the high one comes
first, and neither stands alone. -/
def decoded (content : Text) (high : Option Nat) (code : Nat) : Option Reading :=
  match high with
  | none =>
    if code < 0xd800 || 0xe000 ≤ code then some (.quoted (content ++ [Char.ofNat code]))
    else if code < 0xdc00 then some (.half content code)
    else none
  | some high =>
    if 0xdc00 ≤ code && code < 0xe000 then
      let char := Char.ofNat (0x10000 + (high - 0xd800) * 0x400 + (code - 0xdc00))
      some (.quoted (content ++ [char]))
    else none

def start (c : Char) : Option (List Lexeme × Reading) :=
  if c ∈ spaces then some ([], .between)
  else if c = '\x22' then some ([], .quoted [])
  else if c.isDigit then some ([], .digits (digitValue c))
  else (marks.lookup c).map fun mark => ([mark], .between)

def step (reading : Reading) (c : Char) : Option (List Lexeme × Reading) :=
  match reading with
  | .between => start c
  | .digits n =>
    if c.isDigit then if n = 0 then none else some ([], .digits (10 * n + digitValue c))
    else (start c).map fun (lexemes, next) => (.number n :: lexemes, next)
  | .quoted content =>
    if c = '\x22' then some ([.text content], .between)
    else if c = '\\' then some ([], .escaped content)
    else if c.toNat < 0x20 then none
    else some ([], .quoted (content ++ [c]))
  | .escaped content =>
    if c = 'u' then some ([], .code content none 3 0)
    else (escapes.lookup c).map fun char => ([], .quoted (content ++ [char]))
  | .code content high left n =>
    (hexValue c).bind fun digit =>
      match left with
      | 0 => (decoded content high (16 * n + digit)).map fun next => ([], next)
      | left + 1 => some ([], .code content high left (16 * n + digit))
  | .half content high => if c = '\\' then some ([], .halfEscaped content high) else none
  | .halfEscaped content high =>
    if c = 'u' then some ([], .code content (some high) 3 0) else none

def lexemes : Reading → Text → Option (List Lexeme)
  | .between, [] => some []
  | .digits n, [] => some [.number n]
  | _, [] => none
  | reading, c :: rest =>
    (step reading c).bind fun (first, next) => (lexemes next rest).map (first ++ ·)

inductive Frame where
  | array (items : List Json)
  | object (fields : List (Text × Json)) (name : Text)

def document : List Frame → (value : Option Json) → List Lexeme → Option Json
  | frames, none, .number n :: rest => document frames (some (.number n)) rest
  | frames, none, .text content :: rest => document frames (some (.text content)) rest
  | frames, none, .openArray :: rest => document (.array [] :: frames) none rest
  | .array [] :: frames, none, .closeArray :: rest => document frames (some (.array [])) rest
  | frames, none, .openObject :: .closeObject :: rest =>
    document frames (some (.object [])) rest
  | frames, none, .openObject :: .text name :: .colon :: rest =>
    document (.object [] name :: frames) none rest
  | .array items :: frames, some value, .comma :: rest =>
    document (.array (items ++ [value]) :: frames) none rest
  | .array items :: frames, some value, .closeArray :: rest =>
    document frames (some (.array (items ++ [value]))) rest
  | .object fields name :: frames, some value, .comma :: .text next :: .colon :: rest =>
    document (.object (fields ++ [(name, value)]) next :: frames) none rest
  | .object fields name :: frames, some value, .closeObject :: rest =>
    document frames (some (.object (fields ++ [(name, value)]))) rest
  | [], some value, [] => some value
  | _, _, _ => none

def decode (text : Text) : Option Json := (lexemes .between text).bind (document [] none)

def Passes (reading : Reading) (text : Text) (found : List Lexeme) (next : Reading) : Prop :=
  ∀ rest, lexemes reading (text ++ rest) = (lexemes next rest).map (found ++ ·)

theorem map_found (found later : List Lexeme) (read : Option (List Lexeme)) :
    (read.map (later ++ ·)).map (found ++ ·) = read.map (found ++ later ++ ·) := by
  rw [Option.map_map]
  congr 1
  funext lexemes
  exact (List.append_assoc ..).symm

namespace Passes

variable {first second third : Reading} {a b : Text} {found later : List Lexeme} {c : Char}

theorem nil (reading : Reading) : Passes reading [] [] reading := by
  intro rest
  exact Option.map_id'.symm

theorem char (next : step first c = some (found, second)) : Passes first [c] found second := by
  intro rest
  rw [List.singleton_append, lexemes, next]
  rfl

theorem append (passes : Passes first a found second) (goes_on : Passes second b later third) :
    Passes first (a ++ b) (found ++ later) third := by
  intro rest
  rw [List.append_assoc, passes, goes_on, map_found]

end Passes

theorem passes_blank {text : Text} (blank : ∀ c ∈ text, c ∈ spaces) :
    Passes .between text [] .between := by
  induction text with
  | nil => exact .nil _
  | cons c rest ih =>
      obtain ⟨first, blank⟩ := List.forall_mem_cons.mp blank
      have skipped : step .between c = some ([], .between) := if_pos first
      exact (Passes.char skipped).append (ih blank)

theorem passes_newline (depth : Nat) : Passes .between (newline depth) [] .between := by
  apply passes_blank
  intro c member
  rcases List.mem_cons.mp member with rfl | member
  · decide
  · rw [(List.mem_replicate.mp member).2]
    decide

theorem digit_step : ∀ d < 10, start d.digitChar = some ([], .digits d) ∧
    d.digitChar.isDigit = true ∧ digitValue d.digitChar = d := by
  decide

theorem passes_decimal (n : Nat) : Passes .between (decimal n) [] (.digits n) := by
  induction n using Nat.strongRecOn with
  | ind n ih =>
      rw [decimal]
      by_cases one : n < 10
      · rw [Nat.toDigits_of_lt_base one]
        exact .char (digit_step n one).1
      · rw [Nat.toDigits_of_base_le (by omega) (by omega)]
        obtain ⟨-, digit, value⟩ := digit_step (n % 10) (by omega)
        have more : n / 10 ≠ 0 := by omega
        have front := ih (n / 10) (by omega)
        refine front.append (.char ?_)
        rw [step, if_pos digit, if_neg more, value]
        congr
        omega

theorem hexValue_hexDigit : ∀ n < 16, hexValue (hexDigit n) = some n := by decide

theorem passes_digit (content : Text) (high : Option Nat) (left n : Nat) {c : Char} {digit : Nat}
    (value : hexValue c = some digit) : Passes (.code content high (left + 1) n) [c] []
      (.code content high left (16 * n + digit)) :=
  .char (by rw [step, value]; rfl)

theorem passes_last_digit {content : Text} {high : Option Nat} {n digit : Nat} {c : Char}
    {next : Reading} (value : hexValue c = some digit)
    (char : decoded content high (16 * n + digit) = some next) :
    Passes (.code content high 0 n) [c] [] next :=
  .char (by simp only [step, value, Option.bind_some, char, Option.map_some])

theorem passes_code (content : Text) {c : Char} (low : c.toNat < 0x20) :
    Passes (.quoted content)
      ['\\', 'u', '0', '0', hexDigit (c.toNat / 16), hexDigit (c.toNat % 16)] []
      (.quoted (content ++ [c])) := by
  have zero : hexValue '0' = some 0 := by decide
  have third := hexValue_hexDigit (c.toNat / 16) (by omega)
  have fourth := hexValue_hexDigit (c.toNat % 16) (by omega)
  have code : 16 * (16 * (16 * (16 * 0 + 0) + 0) + c.toNat / 16) + c.toNat % 16 = c.toNat := by
    omega
  have char : decoded content none c.toNat = some (.quoted (content ++ [c])) := by
    rw [decoded, if_pos (by simp; omega), Char.ofNat_toNat]
  have slash : Passes (.quoted content) ['\\'] [] (.escaped content) := .char rfl
  have opened : Passes (.escaped content) ['u'] [] (.code content none 3 0) := .char rfl
  have last := passes_last_digit fourth (by rw [code]; exact char)
  exact slash.append (opened.append ((passes_digit content none 2 0 zero).append
    ((passes_digit content none 1 _ zero).append
      ((passes_digit content none 0 _ third).append last))))

theorem passes_lookup (content : Text) {letter c : Char} (other : letter ≠ 'u')
    (found : escapes.lookup letter = some c) :
    Passes (.quoted content) ['\\', letter] [] (.quoted (content ++ [c])) := by
  have opened : Passes (.quoted content) ['\\'] [] (.escaped content) := .char rfl
  exact opened.append (.char (by simp [step, other, found]))

theorem passes_escape (content : Text) (c : Char) :
    Passes (.quoted content) (escape c) [] (.quoted (content ++ [c])) := by
  unfold escape
  split
  iterate 7 exact passes_lookup content (by decide) (by decide)
  next quote slash _ _ _ _ _ =>
    split
    next low => exact passes_code content low
    next high => exact .char (by rw [step, if_neg quote, if_neg slash, if_neg high])

theorem passes_quoted (content : Text) :
    Passes .between (quoted content) [.text content] .between := by
  have inside (front back : Text) :
      Passes (.quoted front) (back.flatMap escape) [] (.quoted (front ++ back)) := by
    induction back generalizing front with
    | nil => simpa using Passes.nil (.quoted front)
    | cons c rest ih =>
        have later := (passes_escape front c).append (ih (front ++ [c]))
        rwa [List.append_assoc] at later
  have opened : Passes .between ['\x22'] [] (.quoted []) := .char rfl
  have closed : Passes (.quoted content) ['\x22'] [.text content] .between := .char rfl
  exact (opened.append (inside [] content)).append closed

/-- Spells a value: with no digit behind it the lexemes are complete. -/
def Spells (text : Text) (found : List Lexeme) : Prop :=
  ∀ c rest, c.isDigit = false →
    lexemes .between (text ++ c :: rest) = (lexemes .between (c :: rest)).map (found ++ ·)

section

variable {a b : Text} {found later : List Lexeme}

theorem Passes.spells (passes : Passes .between a found .between) : Spells a found :=
  fun c rest _ => passes (c :: rest)

theorem spells_decimal (n : Nat) : Spells (decimal n) [.number n] := by
  intro c rest other
  rw [passes_decimal, lexemes, lexemes, step, step, other, if_neg Bool.false_ne_true]
  cases start c with
  | none => rfl
  | some next =>
      simp only [Option.map_some, Option.bind_some, Option.map_map]
      rfl

theorem Passes.before (passes : Passes .between a found .between) (spells : Spells b later) :
    Spells (a ++ b) (found ++ later) := by
  intro c rest other
  rw [List.append_assoc, passes, spells c rest other, map_found]

theorem Spells.before {c : Char} (spells : Spells a found) (other : c.isDigit = false)
    (passes : Passes .between (c :: b) later .between) :
    Passes .between (a ++ c :: b) (found ++ later) .between := by
  intro rest
  rw [List.append_assoc, List.cons_append, spells c _ other, ← List.cons_append, passes,
    map_found]

end

theorem spells_intercalate {texts : List Text} {spelled : List (List Lexeme)} (depth : Nat)
    (each : List.Forall₂ Spells texts spelled) (some : texts ≠ []) :
    Spells ((',' :: newline depth).intercalate texts) ([.comma].intercalate spelled) := by
  induction each with
  | nil => exact absurd rfl some
  | cons spells each ih =>
      cases each with
      | nil => rwa [List.intercalate_singleton, List.intercalate_singleton]
      | cons =>
          have mark : Passes .between [','] [.comma] .between := .char rfl
          have comma := mark.append (passes_newline depth)
          rw [List.intercalate_cons_cons, List.intercalate_cons_cons]
          exact (spells.before rfl comma).before (ih (by simp))

theorem passes_spread {opening closing : Char} {left right : Lexeme} {texts : List Text}
    {spelled : List (List Lexeme)} (opens : step .between opening = some ([left], .between))
    (closes : step .between closing = some ([right], .between)) (depth : Nat)
    (each : List.Forall₂ Spells texts spelled) :
    Passes .between (spread opening closing depth texts)
      (left :: ([.comma].intercalate spelled ++ [right])) .between := by
  have first : Passes .between [opening] [left] .between := .char opens
  have last : Passes .between [closing] [right] .between := .char closes
  cases each with
  | nil => exact first.append last
  | cons spells each =>
      have inner := spells_intercalate (depth + 1) (.cons spells each) (by simp)
      have ended := inner.before rfl ((passes_newline depth).append last)
      have all := (first.append (passes_newline (depth + 1))).append ended
      rw [spread, if_neg (by simp), List.append_assoc, List.append_assoc]
      exact all

def Documents (found : List Lexeme) (json : Json) : Prop :=
  ∀ frames rest, document frames none (found ++ rest) = document frames (some json) rest

def DocumentsField (found : List Lexeme) (field : Text × Json) : Prop :=
  ∃ value, found = .text field.1 :: .colon :: value ∧ Documents value field.2

theorem intercalate_cons {α : Type} (between first : List α) (rest : List (List α)) :
    between.intercalate (first :: rest) = first ++ (rest.map (between ++ ·)).flatten := by
  induction rest generalizing first with
  | nil => simp
  | cons second rest ih =>
      rw [List.intercalate_cons_cons, ih, List.map_cons, List.flatten_cons]
      simp only [List.append_assoc]

theorem document_items {spelled : List (List Lexeme)} {items : List Json}
    (each : List.Forall₂ Documents spelled items) (done : List Json) (item : Json)
    (frames : List Frame) (rest : List Lexeme) :
    document (.array done :: frames) (some item)
        ((spelled.map ([.comma] ++ ·)).flatten ++ .closeArray :: rest) =
      document frames (some (.array (done ++ item :: items))) rest := by
  induction each generalizing done item with
  | nil => rw [List.map_nil, List.flatten_nil, List.nil_append, document]
  | cons documents _ ih =>
      rw [List.map_cons, List.flatten_cons, List.append_assoc, List.append_assoc,
        List.singleton_append, document, documents, ih, List.append_assoc]
      rfl

theorem documents_array {spelled : List (List Lexeme)} {items : List Json}
    (each : List.Forall₂ Documents spelled items) :
    Documents (.openArray :: ([.comma].intercalate spelled ++ [.closeArray])) (.array items) := by
  intro frames rest
  cases each with
  | nil => rfl
  | cons documents each =>
      rw [List.cons_append, document, intercalate_cons, List.append_assoc, List.append_assoc,
        documents]
      exact document_items each [] _ frames rest

theorem document_fields {spelled : List (List Lexeme)} {fields : List (Text × Json)}
    (each : List.Forall₂ DocumentsField spelled fields) (done : List (Text × Json)) (name : Text)
    (value : Json) (frames : List Frame) (rest : List Lexeme) :
    document (.object done name :: frames) (some value)
        ((spelled.map ([.comma] ++ ·)).flatten ++ .closeObject :: rest) =
      document frames (some (.object (done ++ (name, value) :: fields))) rest := by
  induction each generalizing done name value with
  | nil => rw [List.map_nil, List.flatten_nil, List.nil_append, document]
  | @cons _ field _ _ documents _ ih =>
      obtain ⟨inner, rfl, documents⟩ := documents
      rw [List.map_cons, List.flatten_cons, List.append_assoc, List.append_assoc,
        List.singleton_append, List.cons_append, List.cons_append, document, documents, ih,
        List.append_assoc]
      rfl

theorem documents_object {spelled : List (List Lexeme)} {fields : List (Text × Json)}
    (each : List.Forall₂ DocumentsField spelled fields) :
    Documents (.openObject :: ([.comma].intercalate spelled ++ [.closeObject]))
      (.object fields) := by
  intro frames rest
  cases each with
  | nil => rfl
  | cons documents each =>
      obtain ⟨inner, rfl, documents⟩ := documents
      rw [intercalate_cons, List.cons_append, List.append_assoc, List.append_assoc,
        List.cons_append, List.cons_append, document, documents]
      exact document_fields each [] _ _ frames rest

theorem spells_items {items : List Json} (depth : Nat) (each : ∀ item ∈ items,
      ∃ found, Spells (pretty depth item) found ∧ Documents found item) :
    ∃ spelled, List.Forall₂ Spells (prettyItems depth items) spelled ∧
      List.Forall₂ Documents spelled items := by
  induction items with
  | nil => exact ⟨[], .nil, .nil⟩
  | cons item items ih =>
      obtain ⟨⟨found, spells, documents⟩, each⟩ := List.forall_mem_cons.mp each
      obtain ⟨spelled, spellsAll, documentsAll⟩ := ih each
      exact ⟨found :: spelled, .cons spells spellsAll, .cons documents documentsAll⟩

theorem spells_fields {fields : List (Text × Json)} (depth : Nat) (each : ∀ field ∈ fields,
      ∃ found, Spells (pretty depth field.2) found ∧ Documents found field.2) :
    ∃ spelled, List.Forall₂ Spells (prettyFields depth fields) spelled ∧
      List.Forall₂ DocumentsField spelled fields := by
  induction fields with
  | nil => exact ⟨[], .nil, .nil⟩
  | cons field fields ih =>
      obtain ⟨⟨found, spells, documents⟩, each⟩ := List.forall_mem_cons.mp each
      obtain ⟨spelled, spellsAll, documentsAll⟩ := ih each
      have mark : Passes .between [':'] [.colon] .between := .char rfl
      have blank : Passes .between [' '] [] .between := .char rfl
      have named := (passes_quoted field.1).append (mark.append blank)
      exact ⟨(.text field.1 :: .colon :: found) :: spelled, .cons (named.before spells) spellsAll,
        .cons ⟨found, rfl, documents⟩ documentsAll⟩

theorem spells_pretty (json : Json) (depth : Nat) :
    ∃ found, Spells (pretty depth json) found ∧ Documents found json := by
  induction json using Json.induction generalizing depth with
  | number n => exact ⟨[.number n], spells_decimal n, fun frames rest => by
      rw [List.singleton_append, document]⟩
  | text content => exact ⟨[.text content], (passes_quoted content).spells, fun frames rest => by
      rw [List.singleton_append, document]⟩
  | array items ih =>
      obtain ⟨spelled, spells, documents⟩ :=
        spells_items (depth + 1) fun item member => ih item member (depth + 1)
      exact ⟨_, (passes_spread rfl rfl depth spells).spells, documents_array documents⟩
  | object fields ih =>
      obtain ⟨spelled, spells, documents⟩ :=
        spells_fields (depth + 1) fun field member => ih field member (depth + 1)
      exact ⟨_, (passes_spread rfl rfl depth spells).spells, documents_object documents⟩

/-- A document that is printed on lines of its own is read as it was. -/
theorem decode_pretty (json : Json) : decode (pretty 0 json ++ ['\n']) = some json := by
  obtain ⟨found, spells, documents⟩ := spells_pretty json 0
  have ended : lexemes .between ['\n'] = some [] := rfl
  rw [decode, spells '\n' [] rfl, ended, Option.map_some, Option.bind_some, documents]
  rfl

/-- Both halves of a wide character are read as one; half of one is refused, and so is a number
that starts with a zero for nothing. -/
example : decode "\"\\ud83d\\uDE00\\/\"".toList = some (.text ['😀', '/']) ∧
    (decode "\"\\ud83d\"".toList).isNone = true ∧ (decode "[1, 02]".toList).isNone = true :=
  ⟨rfl, rfl, rfl⟩

end AmdUnwrap.Json
