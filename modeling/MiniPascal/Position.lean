import MiniPascal.Text.Numeral

/-!
Places in a source text. Lines and columns count characters from 1.
-/

namespace MiniPascal

/-- A line and a column. It is known only if both are positive, so the default is unknown. -/
structure Position where
  line : Int := 0
  column : Int := 0
  deriving DecidableEq, Inhabited

namespace Position

def start : Position := ⟨1, 1⟩

def isKnown (p : Position) : Bool := 0 < p.line && 0 < p.column

/-- The position behind character `c` at `p`. -/
def next (p : Position) (c : Char) : Position :=
  if c = '\n' then ⟨p.line + 1, 1⟩ else ⟨p.line, p.column + 1⟩

/-- The position behind some characters that start at `p`. -/
def advance (p : Position) (cs : List Char) : Position := cs.foldl next p

@[simp] theorem advance_nil (p : Position) : p.advance [] = p := rfl

@[simp] theorem advance_cons (p : Position) (c : Char) (cs : List Char) :
    p.advance (c :: cs) = (p.next c).advance cs := rfl

@[simp] theorem advance_append (p : Position) (a b : List Char) :
    p.advance (a ++ b) = (p.advance a).advance b := List.foldl_append

/-- Line and column with a colon between them, or nothing if the position is unknown. -/
def render (p : Position) : Text :=
  if p.isKnown then Numeral.ofInt p.line ++ ":" ++ Numeral.ofInt p.column else []

end Position

end MiniPascal
