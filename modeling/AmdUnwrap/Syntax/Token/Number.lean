import AmdUnwrap.Syntax.Token.Name

namespace AmdUnwrap.Number

def wellSeparated : Text → Bool
  | [] => false
  | [c] => c != '_'
  | '_' :: _ => false
  | _ :: '_' :: '_' :: _ => false
  | _ :: '_' :: rest => wellSeparated rest
  | _ :: rest => wellSeparated rest

def run (isDigit : Char → Bool) (text : Text) : Text :=
  text.takeWhile fun c => isDigit c || c == '_'

def fraction? (text : Text) : Option Nat :=
  match run Char.isDigit text with
  | [] => some 0
  | digits => if wellSeparated digits then some digits.length else none

def signed? (text : Text) : Option Nat :=
  let digits := run Char.isDigit text
  if wellSeparated digits then some digits.length else none

def exponent? (text : Text) : Option Nat :=
  match text with
  | 'e' :: '+' :: rest | 'e' :: '-' :: rest | 'E' :: '+' :: rest | 'E' :: '-' :: rest =>
    (signed? rest).map (· + 2)
  | 'e' :: rest | 'E' :: rest => (signed? rest).map (· + 1)
  | _ => some 0

def tail? (text : Text) : Option Nat :=
  match text with
  | '.' :: rest => do
    let places ← fraction? rest
    let power ← exponent? (rest.drop places)
    return 1 + places + power
  | _ => exponent? text

def decimal? (text : Text) : Option Nat :=
  let digits := run Char.isDigit text
  if wellSeparated digits then
    match text.drop digits.length with
    | 'n' :: _ => some (digits.length + 1)
    | rest => (tail? rest).map (digits.length + ·)
  else none

/-- Past a leading zero the digits are octal, and the number ends with them, unless an eight or
a nine makes it decimal. -/
def zeroLed? (text : Text) : Option Nat :=
  let digits := text.takeWhile Char.isDigit
  if digits.all fun c => c ≤ '7' then some digits.length
  else (tail? (text.drop digits.length)).map (digits.length + ·)

def radix? (isDigit : Char → Bool) (text : Text) : Option Nat :=
  let digits := run isDigit text
  if wellSeparated digits then
    some (2 + digits.length + if (text.drop digits.length).head? == some 'n' then 1 else 0)
  else none

def literal? (text : Text) : Option Nat :=
  match text with
  | '0' :: 'x' :: rest | '0' :: 'X' :: rest => radix? Escape.isHex rest
  | '0' :: 'o' :: rest | '0' :: 'O' :: rest => radix? (fun c => '0' ≤ c && c ≤ '7') rest
  | '0' :: 'b' :: rest | '0' :: 'B' :: rest => radix? (fun c => c == '0' || c == '1') rest
  | '0' :: c :: _ =>
    if c.isDigit then zeroLed? text else if c == '_' then none else decimal? text
  | '.' :: _ => tail? text
  | _ => decimal? text

/-- A number may not run into a name or another digit. -/
def length? (text : Text) : Option Nat :=
  (literal? text).filter fun count =>
    !(text.drop count).head?.any fun c => Identifier.opens c || c.isDigit

end AmdUnwrap.Number
