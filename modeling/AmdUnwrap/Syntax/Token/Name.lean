import AmdUnwrap.Syntax.Identifier
import AmdUnwrap.Syntax.Token

namespace AmdUnwrap.Escape

def hexDigit? (c : Char) : Option Nat :=
  if c.isDigit then some (c.toNat - '0'.toNat)
  else if 'a' ≤ c && c ≤ 'f' then some (c.toNat - 'a'.toNat + 10)
  else if 'A' ≤ c && c ≤ 'F' then some (c.toNat - 'A'.toNat + 10)
  else none

def isHex (c : Char) : Bool := (hexDigit? c).isSome

def hexValue (digits : Text) : Nat :=
  digits.foldl (fun value c => 16 * value + (hexDigit? c).getD 0) 0

/-- The code point after `\u`, four digits or braces, and the count of characters it takes. -/
def codePoint? (text : Text) : Option (Nat × Nat) :=
  match text with
  | '{' :: body =>
    let digits := body.takeWhile isHex
    if digits ≠ [] ∧ hexValue digits ≤ 0x10ffff ∧ (body.drop digits.length).head? = some '}' then
      some (hexValue digits, digits.length + 2)
    else none
  | _ =>
    let digits := text.take 4
    if digits.length = 4 ∧ digits.all isHex then some (hexValue digits, 4) else none

def nameChar? (text : Text) : Option (Char × Nat) :=
  match text with
  | 'u' :: body =>
    match codePoint? body with
    | some (code, count) => if code.isValidChar then some (Char.ofNat code, count + 1) else none
    | none => none
  | _ => none

/-- The length of an escape in a string. A carriage return and a line feed continue a line
together. -/
def stringLength? (text : Text) : Option Nat :=
  match text with
  | [] => none
  | 'x' :: body => if (body.take 2).length = 2 ∧ (body.take 2).all isHex then some 3 else none
  | 'u' :: body => (codePoint? body).map fun (_, count) => count + 1
  | '\r' :: '\n' :: _ => some 2
  | _ :: _ => some 1

/-- Templates have no octal escapes: of the digits only a lone zero may be escaped. -/
def isOctal (text : Text) : Bool :=
  match text with
  | '0' :: next => next.head?.any Char.isDigit
  | c :: _ => c.isDigit
  | [] => false

end AmdUnwrap.Escape

namespace AmdUnwrap.Name

structure Reading where
  name : Text
  stop : Place
  escaped : Bool

def admits (started : Bool) (c : Char) : Bool :=
  if started then Identifier.continues c else Identifier.opens c

/-- Reads as far as the name goes, perhaps nowhere; `pending` characters belong to an escape
that is resolved already. -/
def read? (started : Bool) : Nat → Nat → Text → Option Reading
  | _, offset, [] => some ⟨[], ⟨offset, []⟩, false⟩
  | pending + 1, offset, c :: cs => read? started pending (offset + c.utf8Size) cs
  | 0, offset, c :: cs =>
    if c == '\\' then
      match Escape.nameChar? cs with
      | some (meant, count) =>
        if admits started meant then
          (read? true count (offset + c.utf8Size) cs).map fun tail =>
            ⟨meant :: tail.name, tail.stop, true⟩
        else none
      | none => none
    else if admits started c then
      (read? true 0 (offset + c.utf8Size) cs).map fun tail =>
        ⟨c :: tail.name, tail.stop, tail.escaped⟩
    else some ⟨[], ⟨offset, c :: cs⟩, false⟩

def at? (p : Place) : Option Reading :=
  (read? false 0 p.offset p.rest).filter fun reading => !reading.name.isEmpty

end AmdUnwrap.Name
