import MiniPascal.Token.Scanner
import MiniPascal.Tree.Basic

/-!
The parser: one token of lookahead, no way back. The numbers that bound its recursion count tokens,
so that where one of them is used up no token is left either.
-/

namespace MiniPascal

/-- What a name is to stand for. -/
inductive Role where
  | procedure
  | var
  deriving DecidableEq

def Role.name : Role → Text
  | procedure => "procedure"
  | var => "variable"

/-- Why a token is not allowed where it stands. -/
inductive ParseCause where
  | expected (literal : Text)
  | expectedEnd
  | expectedStatement
  | expectedAssignOrCall (name : Text)
  | expectedExpression
  | outOfRange
  | expectedName (role : Role)
  | reservedName (role : Role)
  deriving DecidableEq

inductive SyntaxError where
  | scan (error : ScanError)
  | parse (cause : ParseCause) (found : Token)
  deriving DecidableEq

namespace Token

def describe (t : Token) : Text :=
  if t.kind = .eof then "end of input" else t.literal.quote

def isWord (t : Token) (word : Text) : Bool := t.kind = .identifier && t.literal = word

def isSymbol (t : Token) (symbol : Text) : Bool := t.kind = .operator && t.literal = symbol

end Token

namespace ParseCause

def message (found : Token) : ParseCause → Text
  | expected literal => "expected " ++ literal.quote ++ ", got " ++ found.describe
  | expectedEnd => "expected end of input, got " ++ found.describe
  | expectedStatement => "expected a statement, got " ++ found.describe
  | expectedAssignOrCall name =>
    "expected \":=\" or \"(\" after " ++ name ++ ", got " ++ found.describe
  | expectedExpression => "expected an expression, got " ++ found.describe
  | outOfRange => "integer literal " ++ found.literal ++ " out of range"
  | expectedName role => "expected " ++ role.name ++ " name, got " ++ found.describe
  | reservedName role =>
    "reserved word " ++ found.literal.quote ++ " cannot be used as a " ++ role.name ++ " name"

end ParseCause

def SyntaxError.toDiagnostic : SyntaxError → Diagnostic
  | scan e => e.toDiagnostic
  | parse cause found => .parse (cause.message found) found.pos

/-- The token under examination and those to come. The first one is fetched when parsing starts. -/
structure Parser.State where
  stream : TokenStream
  current : Token := {}
  started : Bool := false

abbrev Parser := EStateM SyntaxError Parser.State

namespace Parser

def current : Parser Token := do return (← get).current

/-- Moves on to the next token. If there is none the current one stays. -/
def advance : Parser Unit := fun s =>
  match s.stream.next with
  | (.ok t, stream) => .ok () { s with stream, current := t }
  | (.error e, stream) => .error (.scan e) { s with stream }

/-- Rejects the current token. -/
def reject {α : Type} (cause : ParseCause) : Parser α := do
  throw (.parse cause (← current))

/-- Takes a token spelled `literal`. -/
def expect (literal : Text) : Parser Token := do
  let t ← current
  if t.literal = literal then
    advance
    return t
  else reject (.expected literal)

/-- Takes an identifier that is not reserved. -/
def name (role : Role) : Parser Token := do
  let t ← current
  if t.kind ≠ .identifier then reject (.expectedName role)
  else if Token.isKeyword t.literal then reject (.reservedName role)
  else
    advance
    return t

def variableOf (t : Token) : Variable := { token := t, name := t.literal }

def variableName : Parser Variable := do return variableOf (← name .var)

/-- More items, each behind a comma. -/
def moreItems {α : Type} (item : Parser α) : Nat → Parser (List α)
  | 0 => return []
  | n + 1 => do
    if (← current).isSymbol "," then
      advance
      let x ← item
      let xs ← moreItems item n
      return x :: xs
    else return []

/-- Items between parentheses, with commas between them. -/
def itemList {α : Type} (item : Parser α) (n : Nat) : Parser (List α) := do
  let _ ← expect "("
  if (← current).isSymbol ")" then
    let _ ← expect ")"
    return []
  else
    let x ← item
    let xs ← moreItems item n
    let _ ← expect ")"
    return x :: xs

/-- The binary operators by precedence, the tightest first. -/
def levels : List (List (Text × Operator)) := [
  [("*", .mul), ("/", .div), ("mod", .mod)],
  [("+", .add), ("-", .sub)],
  [("=", .eq), ("<>", .ne), ("<", .lt), (">", .gt), ("<=", .le), (">=", .ge)],
  [("&&", .and), ("||", .or)]]

/-- The operator of a level that a token stands for. -/
def operatorAmong (level : List (Text × Operator)) (t : Token) : Option Operator :=
  if t.kind = .operator || t.isWord "mod" then level.lookup t.literal else none

/-- Folds a run of operators of one level to the left. -/
def foldLevel (level : List (Text × Operator)) (operand : Parser Expr) :
    Nat → Expr → Parser Expr
  | 0, left => return left
  | n + 1, left => do
    let t ← current
    match operatorAmong level t with
    | none => return left
    | some op =>
      advance
      let right ← operand
      foldLevel level operand n (.binary t op left right)

def binaryLevel (n : Nat) (operand : Parser Expr) (level : List (Text × Operator)) :
    Parser Expr := do
  let left ← operand
  foldLevel level operand n left

/-- An expression whose innermost operands are given. -/
def expressionOver (n : Nat) (factor : Parser Expr) : Parser Expr :=
  levels.foldl (binaryLevel n) factor

/-- A constant, which must fit a word. -/
def number : Parser Expr := do
  let t ← current
  match Numeral.readWord? .decimal t.literal with
  | none => reject .outOfRange
  | some value =>
    advance
    return .literal t value .int false

def truth (value : Int32) : Parser Expr := do
  let t ← current
  advance
  return .literal t value .int true

/-- A variable or a call. -/
def reference (n : Nat) (expression : Parser Expr) : Parser Expr := do
  let t ← name .var
  if (← current).isSymbol "(" then
    let args ← itemList expression n
    return .call t t.literal args
  else return .var (variableOf t)

/-- An operand: `( expression )`, `- factor`, a number, a truth value, a variable or a call. -/
def factor : Nat → Parser Expr
  | 0 => reject .expectedExpression
  | n + 1 => do
    let expression := expressionOver n (factor n)
    let t ← current
    match t.kind with
    | .operator =>
      if t.literal = "(" then
        advance
        let e ← expression
        let _ ← expect ")"
        return e
      else if t.literal = "-" then
        advance
        let operand ← factor n
        return .binary t .sub (.literal t 0 .int false) operand
      else reject .expectedExpression
    | .number => number
    | .identifier =>
      if t.literal = "True" then truth 1
      else if t.literal = "False" then truth 0
      else reference n expression
    | _ => reject .expectedExpression

def expression (n : Nat) : Parser Expr := expressionOver n (factor n)

/-- Statements up to `END` or the end of the source. -/
def statements (statement : Parser Stmt) : Nat → Parser (List Stmt)
  | 0 => return []
  | n + 1 => do
    let t ← current
    if t.isWord "END" || t.kind = .eof then return []
    else
      let s ← statement
      let ss ← statements statement n
      return s :: ss

/-- A block, `BEGIN statements END;`. A period in place of the semicolon is left to the program. -/
def block (n : Nat) (statement : Parser Stmt) : Parser Stmt := do
  let t ← expect "BEGIN"
  let body ← statements statement n
  let _ ← expect "END"
  if (← current).isSymbol "." then return .block t body
  else
    let _ ← expect ";"
    return .block t body

/-- A declaration, `PROCEDURE name(params); statement`. -/
def declaration (n : Nat) (statement : Parser Stmt) : Parser Declaration := do
  let t ← expect "PROCEDURE"
  let called ← name .procedure
  let params ← itemList variableName n
  let _ ← expect ";"
  let body ← statement
  return ⟨t, ⟨called.literal, params, body⟩⟩

/-- Output, `WRITELN(expression);`. -/
def writeLn (n : Nat) : Parser Stmt := do
  let t ← expect "WRITELN"
  let _ ← expect "("
  let value ← expression n
  let _ ← expect ")"
  let _ ← expect ";"
  return .writeLn t value

/-- Input, `READLN(variable);`. -/
def readLn : Parser Stmt := do
  let t ← expect "READLN"
  let _ ← expect "("
  let target ← variableName
  let _ ← expect ")"
  let _ ← expect ";"
  return .readLn t target

/-- A choice, `IF expression THEN statement` with or without `ELSE statement`. An `ELSE` belongs to
the nearest `IF`. -/
def conditional (n : Nat) (statement : Parser Stmt) : Parser Stmt := do
  let t ← expect "IF"
  let cond ← expression n
  let _ ← expect "THEN"
  let body ← statement
  if (← current).isWord "ELSE" then
    advance
    let alternative ← statement
    return .ifElse t cond body alternative
  else return .ifThen t cond body

/-- A loop, `WHILE expression DO statement`. -/
def whileLoop (n : Nat) (statement : Parser Stmt) : Parser Stmt := do
  let t ← expect "WHILE"
  let cond ← expression n
  let _ ← expect "DO"
  let body ← statement
  return .loop t cond body

/-- A counting loop, `FOR variable := expression TO expression DO statement`. -/
def forLoop (n : Nat) (statement : Parser Stmt) : Parser Stmt := do
  let t ← expect "FOR"
  let v ← variableName
  let _ ← expect ":="
  let first ← expression n
  let _ ← expect "TO"
  let last ← expression n
  let _ ← expect "DO"
  let body ← statement
  return .forLoop t v first last body

/-- An assignment, `variable := expression;`, or a call, `name(arguments);`. -/
def assignOrCall (n : Nat) : Parser Stmt := do
  let t ← current
  if t.kind ≠ .identifier || Token.isKeyword t.literal then reject .expectedStatement
  else
    let target ← name .var
    let sign ← current
    if sign.isSymbol ":=" then
      advance
      let value ← expression n
      let _ ← expect ";"
      return .assign sign (variableOf target) value
    else if sign.isSymbol "(" then
      let args ← itemList (expression n) n
      let _ ← expect ";"
      return .call target target.literal args
    else reject (.expectedAssignOrCall target.literal)

def statement : Nat → Parser Stmt
  | 0 => reject .expectedStatement
  | n + 1 => do
    let t ← current
    if t.isWord "BEGIN" then block n (statement n)
    else if t.isWord "PROCEDURE" then return (← declaration n (statement n)).toStmt
    else if t.isWord "WRITELN" then writeLn n
    else if t.isWord "READLN" then readLn
    else if t.isWord "IF" then conditional n (statement n)
    else if t.isWord "WHILE" then whileLoop n (statement n)
    else if t.isWord "FOR" then forLoop n (statement n)
    else assignOrCall n

def declarations (statement : Parser Stmt) (n : Nat) : Nat → Parser (List Declaration)
  | 0 => return []
  | k + 1 => do
    if (← current).isWord "PROCEDURE" then
      let d ← declaration n statement
      let ds ← declarations statement n k
      return d :: ds
    else return []

/-- Declarations, a statement and perhaps a period, up to the end of the source. -/
def program (n : Nat) : Parser Program := do
  let procedures ← declarations (statement n) n n
  let main ← statement n
  if (← current).isSymbol "." then advance
  if (← current).kind = .eof then return ⟨procedures, some main⟩
  else reject .expectedEnd

/-- Fetches the first token if none was fetched before. -/
def start : Parser Unit := do
  let s ← get
  if s.started then return
  else
    set { s with started := true }
    advance

/-- Parses a program from where the state stands. -/
def run : Parser Program := do
  start
  let s ← get
  program (s.stream.items.length + 2)

end Parser

namespace Program

/-- The program that a source holds. -/
def ofSource (s : Source) : Except SyntaxError Program :=
  match Parser.run { stream := TokenStream.ofSource s } with
  | .ok p _ => .ok p
  | .error e _ => .error e

/-- The program that a text holds. -/
def ofText (t : Text) : Except SyntaxError Program := ofSource (.ofText t none)

end Program

end MiniPascal
