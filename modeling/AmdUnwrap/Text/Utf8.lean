import AmdUnwrap.Text.Basic

namespace AmdUnwrap

abbrev Bytes := List UInt8

namespace Utf8

structure Fault where
  index : Nat
  /-- How many bytes the longest valid start of a sequence has here; none if the input ends
  within one that was valid so far. -/
  extent : Option Nat
  deriving DecidableEq, Repr

/-- What a first byte calls for: how many more bytes, the least and the greatest of them that may
come next, and its own share of the code point. -/
def lead? (b : UInt8) : Option (Nat × UInt8 × UInt8 × Nat) :=
  if 0xc2 ≤ b && b ≤ 0xdf then some (1, 0x80, 0xbf, b.toNat - 0xc0)
  else if b == 0xe0 then some (2, 0xa0, 0xbf, 0)
  else if b == 0xed then some (2, 0x80, 0x9f, 0xd)
  else if 0xe1 ≤ b && b ≤ 0xef then some (2, 0x80, 0xbf, b.toNat - 0xe0)
  else if b == 0xf0 then some (3, 0x90, 0xbf, 0)
  else if 0xf1 ≤ b && b ≤ 0xf3 then some (3, 0x80, 0xbf, b.toNat - 0xf0)
  else if b == 0xf4 then some (3, 0x80, 0x8f, 4)
  else none

def tail : (owed : Nat) → (low high : UInt8) → (value taken : Nat) → Bytes →
    Except (Option Nat) Nat
  | 0, _, _, value, _, _ => .ok value
  | _ + 1, _, _, _, _, [] => .error none
  | owed + 1, low, high, value, taken, b :: rest =>
    if low ≤ b && b ≤ high then
      tail owed 0x80 0xbf (64 * value + (b.toNat - 0x80)) (taken + 1) rest
    else .error (some taken)

/-- Reads from `index` on; `pending` bytes belong to a character that is read already. -/
def decodeFrom : (pending index : Nat) → Bytes → Except Fault Text
  | _, _, [] => .ok []
  | pending + 1, index, _ :: rest => decodeFrom pending (index + 1) rest
  | 0, index, b :: rest =>
    if b < 0x80 then (decodeFrom 0 (index + 1) rest).map (Char.ofNat b.toNat :: ·)
    else match lead? b with
      | none => .error ⟨index, some 1⟩
      | some (owed, low, high, value) =>
        match tail owed low high value 1 rest with
        | .ok code => (decodeFrom owed (index + 1) rest).map (Char.ofNat code :: ·)
        | .error extent => .error ⟨index, extent⟩

def decode (bytes : Bytes) : Except Fault Text := decodeFrom 0 0 bytes

def encode (text : Text) : Bytes := text.flatMap String.utf8EncodeChar

end Utf8
end AmdUnwrap
