import AmdUnwrap.Text.Basic

namespace AmdUnwrap

inductive Json where
  | number (n : Nat)
  | text (content : Text)
  | array (items : List Json)
  | object (fields : List (Text × Json))
  deriving Repr

namespace Json

def hexDigit (n : Nat) : Char := (Nat.toDigits 16 n).headD '0'

/-- Only the quote, the backslash and the control characters are escaped. -/
def escape (c : Char) : Text :=
  match c with
  | '\x22' => ['\\', '\x22']
  | '\\' => ['\\', '\\']
  | '\x08' => ['\\', 'b']
  | '\t' => ['\\', 't']
  | '\n' => ['\\', 'n']
  | '\x0c' => ['\\', 'f']
  | '\r' => ['\\', 'r']
  | _ =>
    if c.toNat < 0x20 then ['\\', 'u', '0', '0', hexDigit (c.toNat / 16), hexDigit (c.toNat % 16)]
    else [c]

def quoted (content : Text) : Text := '\x22' :: content.flatMap escape ++ ['\x22']

def newline (depth : Nat) : Text := '\n' :: List.replicate (2 * depth) ' '

def spread (opening closing : Char) (depth : Nat) (items : List Text) : Text :=
  if items.isEmpty then [opening, closing]
  else opening :: newline (depth + 1) ++
    (',' :: newline (depth + 1)).intercalate items ++ newline depth ++ [closing]

mutual
def pretty (depth : Nat) : Json → Text
  | number n => decimal n
  | text content => quoted content
  | array items => spread '[' ']' depth (prettyItems (depth + 1) items)
  | object fields => spread '{' '}' depth (prettyFields (depth + 1) fields)

def prettyItems (depth : Nat) : List Json → List Text
  | [] => []
  | item :: rest => pretty depth item :: prettyItems depth rest

def prettyFields (depth : Nat) : List (Text × Json) → List Text
  | [] => []
  | (name, value) :: rest =>
    (quoted name ++ [':', ' '] ++ pretty depth value) :: prettyFields depth rest
end

mutual
def compact : Json → Text
  | number n => decimal n
  | text content => quoted content
  | array items => '[' :: List.intercalate [','] (compactItems items) ++ [']']
  | object fields => '{' :: List.intercalate [','] (compactFields fields) ++ ['}']

def compactItems : List Json → List Text
  | [] => []
  | item :: rest => compact item :: compactItems rest

def compactFields : List (Text × Json) → List Text
  | [] => []
  | (name, value) :: rest => (quoted name ++ [':'] ++ compact value) :: compactFields rest
end

end Json
end AmdUnwrap
