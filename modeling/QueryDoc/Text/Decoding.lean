/-!
# Decoding UTF-8

A text is read from bytes one character at a time. The first byte of a character tells how many
follow and which values the second one may have, so that overlong forms, surrogates and code points
past the last one are refused at the first byte that rules them out.
-/
namespace QueryDoc.Text

/-- Where bytes stop being text: the index of the first byte of the character that cannot be read,
and the number of bytes up to the one that rules it out, or `none` if the bytes end inside it. -/
structure DecodingFault where
  index : Nat
  length : Option Nat
  deriving DecidableEq, Repr

def DecodingFault.message : DecodingFault → String
  | ⟨index, some n⟩ =>
    "invalid utf-8 sequence of " ++ toString n ++ " bytes from index " ++ toString index
  | ⟨index, none⟩ => "incomplete utf-8 byte sequence from index " ++ toString index

/-- A character that has begun: its value so far, the bytes still owed, and the least and the
greatest value of the next one. -/
structure Begun where
  start : Nat
  value : Nat
  owed : Nat
  low : Nat
  high : Nat

/-- The character that a byte of more than seven bits begins at `start`. -/
def Begun.ofLead? (start b : Nat) : Option Begun :=
  if 0xC2 ≤ b && b ≤ 0xDF then some ⟨start, b - 0xC0, 1, 0x80, 0xBF⟩
  else if b == 0xE0 then some ⟨start, 0, 2, 0xA0, 0xBF⟩
  else if b == 0xED then some ⟨start, 0xD, 2, 0x80, 0x9F⟩
  else if 0xE1 ≤ b && b ≤ 0xEF then some ⟨start, b - 0xE0, 2, 0x80, 0xBF⟩
  else if b == 0xF0 then some ⟨start, 0, 3, 0x90, 0xBF⟩
  else if 0xF1 ≤ b && b ≤ 0xF3 then some ⟨start, b - 0xF0, 3, 0x80, 0xBF⟩
  else if b == 0xF4 then some ⟨start, 4, 3, 0x80, 0x8F⟩
  else none

/-- Reads on at byte `index`, inside the character that has begun, if any. -/
def decodeFrom (index : Nat) : Option Begun → List UInt8 → Except DecodingFault (List Char)
  | none, [] => .ok []
  | some g, [] => .error ⟨g.start, none⟩
  | none, b :: rest =>
    if b < 0x80 then (decodeFrom (index + 1) none rest).map (Char.ofNat b.toNat :: ·)
    else
      match Begun.ofLead? index b.toNat with
      | some g => decodeFrom (index + 1) (some g) rest
      | none => .error ⟨index, some 1⟩
  | some g, b :: rest =>
    if g.low ≤ b.toNat && b.toNat ≤ g.high then
      let value := g.value * 0x40 + (b.toNat - 0x80)
      if g.owed ≤ 1 then (decodeFrom (index + 1) none rest).map (Char.ofNat value :: ·)
      else decodeFrom (index + 1) (some ⟨g.start, value, g.owed - 1, 0x80, 0xBF⟩) rest
    else .error ⟨g.start, some (index - g.start)⟩

def decode (bytes : List UInt8) : Except DecodingFault String :=
  (decodeFrom 0 none bytes).map String.ofList

end QueryDoc.Text
