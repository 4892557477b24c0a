/-!
Text as it arrives from outside: a list of characters, in which a byte that encodes no character
stands for itself. Every text the program reads, keeps or prints has this one type, so nothing is
lost between what is read and what is printed.
-/

namespace MiniPascal

/-- One unit of a text: a character, or a byte that belongs to no encoded character. -/
inductive Glyph where
  | char (c : Char)
  | stray (b : UInt8)
  deriving DecidableEq, Inhabited

namespace Glyph

/-- A stray byte reads as the replacement character. -/
def toChar : Glyph → Char
  | char c => c
  | stray _ => '�'

/-- The number of bytes that write the glyph. -/
def size : Glyph → Nat
  | char c => c.utf8Size
  | stray _ => 1

end Glyph

abbrev Text := List Glyph

namespace Text

def ofChars (cs : List Char) : Text := cs.map .char

def ofString (s : String) : Text := ofChars s.toList

instance : Coe String Text := ⟨ofString⟩

/-- The characters of a text, one for each glyph. -/
def chars (t : Text) : List Char := t.map Glyph.toChar

/-- The number of bytes that write the text. -/
def size (t : Text) : Nat := t.foldr (fun g n => g.size + n) 0

@[simp] theorem ofChars_nil : ofChars [] = [] := rfl

@[simp] theorem ofChars_cons (c : Char) (cs : List Char) :
    ofChars (c :: cs) = .char c :: ofChars cs := rfl

@[simp] theorem ofChars_append (a b : List Char) : ofChars (a ++ b) = ofChars a ++ ofChars b :=
  List.map_append

@[simp] theorem chars_ofChars (cs : List Char) : chars (ofChars cs) = cs := by
  simp [chars, ofChars, Function.comp_def, Glyph.toChar]

theorem ofChars_injective {a b : List Char} (h : ofChars a = ofChars b) : a = b := by
  rw [← chars_ofChars a, h, chars_ofChars]

/-- The pieces of a text between line feeds; a text without one is a single piece. -/
def lines (t : Text) : List Text := t.splitOn (.char '\n')

/-- Everything before the first `c`, which is the whole text if there is none. -/
def before (c : Char) (t : Text) : Text := t.takeWhile (· ≠ .char c)

/-- Cuts at the first `c`, which neither part keeps. -/
def cut? (c : Char) (t : Text) : Option (Text × Text) :=
  match t.dropWhile (· ≠ .char c) with
  | [] => none
  | _ :: after => some (t.before c, after)

def spaces (n : Nat) : Text := List.replicate n (.char ' ')

/-- Puts `sep` between neighbouring parts. -/
def join (sep : Text) (parts : List Text) : Text := List.intercalate sep parts

end Text

end MiniPascal
