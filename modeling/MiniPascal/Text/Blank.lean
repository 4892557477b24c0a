import MiniPascal.Text.Basic

/-!
Blank characters, and the texts without the blanks at their ends.
-/

namespace MiniPascal

/-- The characters with the property White_Space. -/
def isBlankChar (c : Char) : Bool :=
  let n := c.toNat
  (0x09 ≤ n && n ≤ 0x0D) || n == 0x20 || n == 0x85 || n == 0xA0 || n == 0x1680 ||
    (0x2000 ≤ n && n ≤ 0x200A) || n == 0x2028 || n == 0x2029 || n == 0x202F || n == 0x205F ||
    n == 0x3000

namespace Glyph

/-- A stray byte is never blank. -/
def isBlank : Glyph → Bool
  | char c => isBlankChar c
  | stray _ => false

end Glyph

namespace Text

def trimLeft (t : Text) : Text := t.dropWhile Glyph.isBlank

def trimRight (t : Text) : Text := (t.reverse.dropWhile Glyph.isBlank).reverse

/-- Drops the blanks at both ends. -/
def trim (t : Text) : Text := trimRight (trimLeft t)

end Text

end MiniPascal
