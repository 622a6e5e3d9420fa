/-!
# Text as bytes

Lengths, indices and comparisons of strings are those of their UTF-8 bytes.
Bytes that are cut out of a string need not be the encoding of a text; reading
them back puts a replacement character for every maximal part of a broken
sequence.

## Main definitions

* `Text.bytes` — the UTF-8 encoding of a text.
* `Text.ofBytes` — the text of a list of bytes.
-/

namespace ScriptEngine.Text

/-- The UTF-8 encoding of a text. -/
def bytes (text : String) : List UInt8 := text.toList.flatMap String.utf8EncodeChar

/-- What stands for bytes that encode nothing. -/
def replacement : Char := Char.ofNat 0xFFFD

/-- A sequence of bytes that is not complete: the bits read so far, the number
of bytes to come, and the bounds of the next one. -/
structure Unfinished where
  value : Nat
  missing : Nat
  low : Nat
  high : Nat

/-- What a byte that begins a sequence stands for: a character, the first part
of a longer sequence, or nothing. -/
inductive Opening where
  | complete (c : Char)
  | unfinished (p : Unfinished)
  | broken

/-- Reads the first byte of a sequence.  The bounds of the second byte keep out
overlong forms, surrogates and code points beyond the last plane. -/
def opening (b : Nat) : Opening :=
  if b < 0x80 then .complete (Char.ofNat b)
  else if b < 0xC2 then .broken
  else if b < 0xE0 then .unfinished ⟨b - 0xC0, 1, 0x80, 0xBF⟩
  else if b < 0xF0 then
    .unfinished ⟨b - 0xE0, 2, if b = 0xE0 then 0xA0 else 0x80, if b = 0xED then 0x9F else 0xBF⟩
  else if b < 0xF5 then
    .unfinished ⟨b - 0xF0, 3, if b = 0xF0 then 0x90 else 0x80, if b = 0xF4 then 0x8F else 0xBF⟩
  else .broken

/-- Reads bytes, the first of which may have to complete a sequence, behind the
characters that have been `read`, which are given last one first. -/
def decodeOnto (read : List Char) : Option Unfinished → List UInt8 → List Char
  | none, [] => read.reverse
  | some _, [] => (replacement :: read).reverse
  | none, b :: rest =>
    match opening b.toNat with
    | .complete c => decodeOnto (c :: read) none rest
    | .unfinished p => decodeOnto read (some p) rest
    | .broken => decodeOnto (replacement :: read) none rest
  | some p, b :: rest =>
    if p.low ≤ b.toNat ∧ b.toNat ≤ p.high then
      let value := p.value * 64 + (b.toNat - 0x80)
      if p.missing = 1 then decodeOnto (Char.ofNat value :: read) none rest
      else decodeOnto read (some ⟨value, p.missing - 1, 0x80, 0xBF⟩) rest
    else
      -- the sequence breaks off, and this byte begins a new one
      match opening b.toNat with
      | .complete c => decodeOnto (c :: replacement :: read) none rest
      | .unfinished q => decodeOnto (replacement :: read) (some q) rest
      | .broken => decodeOnto (replacement :: replacement :: read) none rest

/-- The text of a list of bytes. -/
def ofBytes (bs : List UInt8) : String := String.ofList (decodeOnto [] none bs)

end ScriptEngine.Text
