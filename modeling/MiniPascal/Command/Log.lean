import MiniPascal.Command.Settings

/-!
Log records, as text or as JSON, one on a line.
-/

namespace MiniPascal

namespace Log

inductive Level where
  | debug
  | info
  | warn
  deriving DecidableEq

def Level.name : Level → Text
  | debug => "DEBUG"
  | info => "INFO"
  | warn => "WARN"

/-- Whether records of a level are written: warnings always, the others only if verbose. -/
def Level.enabled (verbose : Bool) : Level → Bool
  | warn => true
  | _ => verbose

inductive Value where
  | text (t : Text)
  | number (n : Nat)
  deriving DecidableEq

structure Record where
  level : Level
  message : Text
  fields : List (Text × Value) := []
  deriving DecidableEq

/-- Whether a glyph keeps a text from standing without quotes. -/
def needsQuotes : Glyph → Bool
  | .stray _ => true
  | .char c =>
    if c.toNat < 0x80 then c.toNat < 0x20 || c == ' ' || c == '=' || c == '"'
    else c == '�' || isPrintable c == false

/-- A text, quoted if it is empty or holds a glyph that asks for it. -/
def plain (t : Text) : Text := if t = [] || t.any needsQuotes then t.quote else t

/-- A glyph inside a JSON string. -/
def jsonGlyph : Glyph → List Char
  | .stray _ => "\\ufffd".toList
  | .char c =>
    match c.toNat with
    | 0x08 => ['\\', 'b']
    | 0x09 => ['\\', 't']
    | 0x0A => ['\\', 'n']
    | 0x0C => ['\\', 'f']
    | 0x0D => ['\\', 'r']
    | 0x22 => ['\\', '"']
    | 0x5C => ['\\', '\\']
    | 0x2028 => "\\u2028".toList
    | 0x2029 => "\\u2029".toList
    | n => if n < 0x20 then '\\' :: 'u' :: Quoted.hex 4 n else [c]

def jsonString (t : Text) : Text := Text.ofChars ('"' :: t.flatMap jsonGlyph ++ ['"'])

/-- The fields of a record, level and message first. -/
def Record.entries (r : Record) : List (Text × Value) :=
  ("level", .text r.level.name) :: ("msg", .text r.message) :: r.fields

def Value.plain : Value → Text
  | text t => Log.plain t
  | number n => Numeral.ofNat n

def Value.json : Value → Text
  | text t => jsonString t
  | number n => Numeral.ofNat n

def Record.render (r : Record) : LogFormat → Text
  | .text =>
    Text.join " " (r.entries.map fun (key, value) => (key ++ "=" ++ value.plain : Text)) ++ "\n"
  | .json =>
    let pairs := r.entries.map fun (key, value) => (jsonString key ++ ":" ++ value.json : Text)
    "\x7b" ++ Text.join "," pairs ++ "\x7d\n"

end Log

end MiniPascal
