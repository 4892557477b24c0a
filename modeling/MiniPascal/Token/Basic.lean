import MiniPascal.Position
import MiniPascal.Text.Quoted

/-!
Tokens, and the fixed spellings of the language: its operators and its reserved words.
-/

namespace MiniPascal

/-- What a token is. A token of kind `any` is only compared with others and fits every kind. -/
inductive Token.Kind where
  | identifier
  | number
  | operator
  | eof
  | any
  | other (name : Text)
  deriving DecidableEq

structure Token where
  kind : Token.Kind := .any
  literal : Text := []
  pos : Position := {}
  deriving DecidableEq

namespace Token

def Kind.name : Kind → Text
  | identifier => "IDENTIFIER"
  | number => "NUMBER"
  | operator => "OPERATOR"
  | eof => "EOF"
  | any => []
  | other name => name

def Kind.ofName (name : Text) : Kind :=
  if name = [] then any
  else if name = "IDENTIFIER" then identifier
  else if name = "NUMBER" then number
  else if name = "OPERATOR" then operator
  else if name = "EOF" then eof
  else other name

instance : Inhabited Token := ⟨{}⟩

/-- The token that agrees with every token spelled `literal`. -/
def spelled (literal : Text) : Token := { literal }

/-- Same spelling, and same kind unless one of the kinds is `any`. -/
def agrees (a b : Token) : Bool :=
  a.literal = b.literal && (a.kind = .any || b.kind = .any || a.kind = b.kind)

def render (t : Token) : Text :=
  if t.kind = .any then t.literal.quote else t.kind.name ++ " " ++ t.literal.quote

/-- The operators that the scanner knows, the openers of comments among them. -/
def operators : List (List Char) :=
  ["=", "+", "-", "*", "/", "(", ")", "<", ">", "<=", ">=", "<>", ":=", ";", ",", ".", "&&", "||",
    "//", "/*"].map String.toList

/-- The reserved words, which name neither variables nor procedures. -/
def keywords : List Text :=
  ["BEGIN", "END", "PROCEDURE", "WRITELN", "READLN", "IF", "THEN", "ELSE", "WHILE", "DO", "FOR",
    "TO", "mod", "True", "False"]

def isKeyword (word : Text) : Bool := keywords.contains word

end Token

end MiniPascal
