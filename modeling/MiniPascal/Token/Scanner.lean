import MiniPascal.Diagnostic
import MiniPascal.Token.Basic
import MiniPascal.Token.Trie

/-!
The scanner: what is left of a source yields its next token or the reason why there is none, and
what is left then. Between tokens it passes over blanks, line comments and nested block comments.
-/

namespace MiniPascal

inductive ScanError where
  | invalidCharacter (c : Char) (pos : Position)
  | invalidOperator (label : List Char) (pos : Position)
  | unterminatedComment (pos : Position)
  | unreadable (reason : Text)
  deriving DecidableEq

namespace ScanError

def toDiagnostic : ScanError → Diagnostic
  | invalidCharacter c p => .scan ("invalid character " ++ Text.quoteChar c) p
  | invalidOperator label p => .scan ("invalid operator " ++ (Text.ofChars label).quote) p
  | unterminatedComment p => .scan "unterminated block comment" p
  | unreadable reason => .during "read source" (.other reason)

end ScanError

/-- What is left of a source: its characters, the position of the first of them, and how reading
fails behind the last one if it does not just end there. -/
structure Source where
  rest : List Char
  pos : Position
  failure : Option Text
  deriving DecidableEq

/-- Where a position between two tokens lies. A block comment knows where it was opened, and where
those around it were, the innermost first. -/
inductive Gap where
  | plain
  | line
  | block (opened : Position) (outer : List Position)
  deriving DecidableEq

/-- The end of a gap: what follows it, where, and the opener of a comment that is still open. -/
structure Gap.End where
  rest : List Char
  pos : Position
  unclosed : Option Position := none
  deriving DecidableEq

namespace Gap

def isSpace (c : Char) : Bool := c == ' ' || c == '\t' || c == '\n' || c == '\r'

/-- The gap behind a closed block comment. -/
def close : List Position → Gap
  | [] => plain
  | opened :: outer => block opened outer

/-- Passes over the rest of a gap. -/
def skip : Gap → Position → List Char → Gap.End
  | plain, p, '/' :: '/' :: cs => skip line (p.advance ['/', '/']) cs
  | plain, p, '/' :: '*' :: cs => skip (block p []) (p.advance ['/', '*']) cs
  | plain, p, c :: cs => if isSpace c then skip plain (p.next c) cs else ⟨c :: cs, p, none⟩
  | line, p, c :: cs => skip (if c = '\n' then plain else line) (p.next c) cs
  | block _ outer, p, '*' :: '/' :: cs => skip (close outer) (p.advance ['*', '/']) cs
  | block opened outer, p, '/' :: '*' :: cs =>
    skip (block p (opened :: outer)) (p.advance ['/', '*']) cs
  | block opened outer, p, c :: cs => skip (block opened outer) (p.next c) cs
  | block opened _, p, [] => ⟨[], p, some opened⟩
  | plain, p, [] => ⟨[], p, none⟩
  | line, p, [] => ⟨[], p, none⟩

end Gap

namespace Source

/-- The character that ends a source wherever it stands. -/
def sentinel : Char := '$'

/-- The source that a text holds. If reading is to fail behind it, that matters only if no sentinel
ends it before. -/
def ofText (t : Text) (failure : Option Text) : Source :=
  { rest := t.chars.takeWhile (· ≠ sentinel)
    pos := .start
    failure := if t.chars.contains sentinel then none else failure }

def isLetter (c : Char) : Bool := ('a' ≤ c && c ≤ 'z') || ('A' ≤ c && c ≤ 'Z')

def isDigit (c : Char) : Bool := '0' ≤ c && c ≤ '9'

/-- The tree of all operators. -/
def operatorTrie : Trie := Trie.ofList Token.operators

/-- The source behind its first `lexeme.length` characters, which are `lexeme`. -/
def drop (s : Source) (lexeme : List Char) : Source :=
  { s with rest := s.rest.drop lexeme.length, pos := s.pos.advance lexeme }

/-- Goes along a tree as far as the characters at the front lead, and takes them one after the other:
the node where that ends, and the source behind them. -/
def follow (failure : Option Text) : Trie → Position → List Char → Trie × Source
  | node, p, [] => (node, ⟨[], p, failure⟩)
  | node, p, c :: cs =>
    match node.child? c with
    | none => (node, ⟨c :: cs, p, failure⟩)
    | some child => follow failure child (p.next c) cs

/-- The operator that the characters at the front lead to, or an error if none is spelled that way. -/
def nextOperator (s : Source) : Except ScanError Token × Source :=
  let (node, after) := follow s.failure operatorTrie s.pos s.rest
  let outcome : Except ScanError Token :=
    if node.accepting then
      .ok { kind := .operator, literal := Text.ofChars node.label, pos := s.pos }
    else .error (.invalidOperator node.label s.pos)
  (outcome, after)

/-- A token of all characters at the front that satisfy `p`. -/
def nextRun (s : Source) (kind : Token.Kind) (p : Char → Bool) : Except ScanError Token × Source :=
  let lexeme := s.rest.takeWhile p
  (.ok { kind, literal := Text.ofChars lexeme, pos := s.pos }, s.drop lexeme)

/-- The token at the front of a source that no gap precedes. -/
def nextHere (s : Source) : Except ScanError Token × Source :=
  match s.rest with
  | [] =>
    match s.failure with
    | some reason => (.error (.unreadable reason), s)
    | none => (.ok { kind := .eof, pos := s.pos }, s)
  | c :: _ =>
    if operatorTrie.starts c then s.nextOperator
    else if isDigit c then s.nextRun .number isDigit
    else if isLetter c then s.nextRun .identifier fun d => isLetter d || isDigit d
    else (.error (.invalidCharacter c s.pos), s)

/-- The next token, or what stands in its place. At the end of the source, at a character that
begins no token and where reading fails, every further request is answered the same way. -/
def next (s : Source) : Except ScanError Token × Source :=
  let gap := Gap.plain.skip s.pos s.rest
  let here := { s with rest := gap.rest, pos := gap.pos }
  match gap.unclosed with
  | some opened => (.error (.unterminatedComment opened), here)
  | none => here.nextHere

end Source

/-- The answers to all requests for a token: the items in turn, and `last` ever after. -/
structure TokenStream where
  items : List (Except ScanError Token)
  last : Except ScanError Token

namespace TokenStream

/-- Whether every request after the one answered `r` is answered `r` too. -/
def isFinal : Except ScanError Token → Bool
  | .ok t => t.kind = .eof
  | .error (.invalidCharacter ..) => true
  | .error (.unreadable _) => true
  | .error _ => false

/-- The answers of a source, of which at most `n` come before the last one. -/
def ofSourceWithin : Nat → Source → TokenStream
  | 0, s => ⟨[], s.next.1⟩
  | n + 1, s =>
    let (r, s') := s.next
    if isFinal r then ⟨[], r⟩
    else
      let after := ofSourceWithin n s'
      ⟨r :: after.items, after.last⟩

/-- The answers of a source. Each but the last one uses up a character. -/
def ofSource (s : Source) : TokenStream := ofSourceWithin s.rest.length s

def next (t : TokenStream) : Except ScanError Token × TokenStream :=
  match t.items with
  | [] => (t.last, t)
  | r :: rest => (r, { t with items := rest })

end TokenStream

end MiniPascal
