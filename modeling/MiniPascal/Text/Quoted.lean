import MiniPascal.Text.Printable

/-!
Quoted texts and characters. Between the quotes a printable character stands for itself; the quote
and the backslash take a backslash; everything else is written as an escape, so that a quoted text
is one line of printable characters whatever it quotes.
-/

namespace MiniPascal

namespace Quoted

/-- A number in hexadecimal, with leading zeros up to `width` digits. -/
def hex (width n : Nat) : List Char :=
  let digits := Nat.toDigits 16 n
  List.replicate (width - digits.length) '0' ++ digits

/-- The letter of a control character that has one. -/
def controlLetter? (c : Char) : Option Char :=
  match c.toNat with
  | 0x07 => some 'a'
  | 0x08 => some 'b'
  | 0x09 => some 't'
  | 0x0A => some 'n'
  | 0x0B => some 'v'
  | 0x0C => some 'f'
  | 0x0D => some 'r'
  | _ => none

def escapeChar (mark c : Char) : List Char :=
  if c = mark ∨ c = '\\' then ['\\', c]
  else if isPrintable c then [c]
  else
    match controlLetter? c with
    | some l => ['\\', l]
    | none =>
      let n := c.toNat
      if n < 0x20 ∨ n = 0x7F then '\\' :: 'x' :: hex 2 n
      else if n < 0x10000 then '\\' :: 'u' :: hex 4 n
      else '\\' :: 'U' :: hex 8 n

def escape (mark : Char) : Glyph → List Char
  | .char c => escapeChar mark c
  | .stray b => '\\' :: 'x' :: hex 2 b.toNat

end Quoted

namespace Text

/-- The text between double quotes. -/
def quote (t : Text) : Text := ofChars ('"' :: t.flatMap (Quoted.escape '"') ++ ['"'])

/-- A character between single quotes. -/
def quoteChar (c : Char) : Text := ofChars ('\'' :: Quoted.escapeChar '\'' c ++ ['\''])

end Text

end MiniPascal
