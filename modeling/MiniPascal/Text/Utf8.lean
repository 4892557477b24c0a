import MiniPascal.Text.Basic

/-!
Bytes and texts. Decoding takes the UTF-8 form of a character at the front, or else one stray byte;
encoding writes a stray byte as itself, so that decoding loses nothing.
-/

namespace MiniPascal

namespace Glyph

def bytes : Glyph → List UInt8
  | char c => String.utf8EncodeChar c
  | stray b => [b]

end Glyph

namespace Text

def bytes (t : Text) : List UInt8 := t.flatMap Glyph.bytes

/-- Whether `b` may stand after the first byte of an encoded character. -/
def isTail (b : UInt8) : Bool := 0x80 ≤ b && b ≤ 0xBF

/-- The character whose encoding starts with byte `a` and continues in `rest`. The bounds on the
second byte exclude overlong forms, surrogates and values past the last character. -/
def character? (a : UInt8) (rest : List UInt8) : Option (Char × List UInt8) :=
  let bits (b : UInt8) : Nat := b.toNat % 64
  if a < 0x80 then some (Char.ofNat a.toNat, rest)
  else if 0xC2 ≤ a && a ≤ 0xDF then
    match rest with
    | b :: r =>
      if isTail b then some (Char.ofNat (a.toNat % 32 * 64 + bits b), r) else none
    | _ => none
  else if 0xE0 ≤ a && a ≤ 0xEF then
    match rest with
    | b :: c :: r =>
      let low : UInt8 := if a = 0xE0 then 0xA0 else 0x80
      let high : UInt8 := if a = 0xED then 0x9F else 0xBF
      if low ≤ b && b ≤ high && isTail c then
        some (Char.ofNat (a.toNat % 16 * 4096 + bits b * 64 + bits c), r)
      else none
    | _ => none
  else if 0xF0 ≤ a && a ≤ 0xF4 then
    match rest with
    | b :: c :: d :: r =>
      let low : UInt8 := if a = 0xF0 then 0x90 else 0x80
      let high : UInt8 := if a = 0xF4 then 0x8F else 0xBF
      if low ≤ b && b ≤ high && isTail c && isTail d then
        some (Char.ofNat (a.toNat % 8 * 262144 + bits b * 4096 + bits c * 64 + bits d), r)
      else none
    | _ => none
  else none

/-- The glyph at the front of some bytes, and the bytes after it. -/
def glyph? : List UInt8 → Option (Glyph × List UInt8)
  | [] => none
  | a :: rest =>
    match character? a rest with
    | some (c, r) => some (.char c, r)
    | none => some (.stray a, rest)

/-- Decodes at most `n` glyphs behind those already read, which stand in reverse. -/
def decodeOnto : Nat → Text → List UInt8 → Text
  | 0, done, _ => done.reverse
  | n + 1, done, bs =>
    match glyph? bs with
    | none => done.reverse
    | some (g, rest) => decodeOnto n (g :: done) rest

def decode (bs : List UInt8) : Text := decodeOnto bs.length [] bs

/-- Cuts behind the first `n` bytes. A character that lies across the cut falls into its bytes. -/
def cutAt : Nat → Text → Text × Text
  | _, [] => ([], [])
  | 0, t => ([], t)
  | n, g :: t =>
    if g.size ≤ n then
      let (front, back) := cutAt (n - g.size) t
      (g :: front, back)
    else ((g.bytes.take n).map .stray, (g.bytes.drop n).map .stray ++ t)

@[simp] theorem bytes_append (a b : Text) : bytes (a ++ b) = bytes a ++ bytes b := by simp [bytes]

end Text

end MiniPascal
