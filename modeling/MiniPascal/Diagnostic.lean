import MiniPascal.Position

/-!
Diagnostics: what went wrong, in which part of the work, and where in the source. Every failure of
the library turns into one of these, and here they get their wording and their picture of the
source line.
-/

namespace MiniPascal

inductive Diagnostic where
  /-- Characters that make no token. -/
  | scan (message : Text) (pos : Position)
  /-- A token that the grammar does not allow. -/
  | parse (message : Text) (pos : Position)
  /-- A call of a procedure that was not declared. -/
  | undefinedProcedure (name : Text) (pos : Position)
  /-- A part of a program that has no machine code. -/
  | unsupported (operation detail : Text) (pos : Position)
  /-- A failure of a running program. -/
  | runtime (message : Text) (pos : Position)
  /-- A failure that no place in the source explains. -/
  | other (message : Text)
  /-- A failure met while doing something else. -/
  | during (activity : Text) (cause : Diagnostic)
  deriving DecidableEq

namespace Diagnostic

/-- A message behind its kind and, if known, its position. -/
def headed (kind message : Text) (pos : Position) : Text :=
  if pos.isKnown then kind ++ " at " ++ pos.render ++ ": " ++ message
  else kind ++ ": " ++ message

def message : Diagnostic → Text
  | scan m p => headed "scan error" m p
  | parse m p => headed "parse error" m p
  | undefinedProcedure name p => headed "runtime error" ("undefined procedure " ++ name) p
  | unsupported operation detail p =>
    let head := operation ++ " is not supported by the code generator"
    headed "unsupported" (if detail = [] then head else head ++ ": " ++ detail) p
  | runtime m p => headed "runtime error" m p
  | other m => m
  | during activity cause => activity ++ ": " ++ cause.message

def position : Diagnostic → Position
  | scan _ p => p
  | parse _ p => p
  | undefinedProcedure _ p => p
  | unsupported _ _ p => p
  | runtime _ p => p
  | other _ => {}
  | during _ cause => cause.position

/-- The position, if it is known. -/
def position? (d : Diagnostic) : Option Position :=
  if d.position.isKnown then some d.position else none

/-- A line of source without its carriage returns at the end. -/
def bareLine (line : Text) : Text := (line.reverse.dropWhile (· = .char '\r')).reverse

/-- A line with a tab shown as one space. -/
def shownLine (line : Text) : Text :=
  line.map fun g => if g = .char '\t' then .char ' ' else g

/-- The source line at `p` with a caret under the column, each indented by four; nothing if the
source has no such line. A column past the end of the line counts as its end, in bytes. -/
def picture (p : Position) (source : Text) : Text :=
  match source.lines[p.line.toNat - 1]? with
  | none => []
  | some line =>
    let bare := bareLine line
    let column := min (p.column.toNat - 1) bare.size
    "\n    " ++ shownLine bare ++ "\n    " ++ Text.spaces column ++ "^"

/-- The message, and below it the picture of the place if that is known. -/
def render (d : Diagnostic) (source : Text) : Text :=
  match d.position? with
  | none => d.message
  | some p => d.message ++ picture p source

end Diagnostic

end MiniPascal
