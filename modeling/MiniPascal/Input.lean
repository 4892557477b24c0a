import MiniPascal.Input.Buffer
import MiniPascal.Text.Blank
import MiniPascal.Text.Numeral
import MiniPascal.Text.Quoted
import MiniPascal.Text.Utf8

/-!
Console input: a text from which integers are taken word by word, and which ends in one of several
ways. The reader of words fetches ahead, so a text that is taken from the same input begins where the
reader has stopped fetching, not behind the last word.
-/

namespace MiniPascal

/-- How an input ends behind its last word. -/
inductive Input.Ending where
  | closed
  | failed (reason : Text)
  /-- A word was too long to take. No word is taken from what lies beyond the buffer. -/
  | overlong (beyond : Text)
  deriving DecidableEq

structure Input where
  /-- What no word has been taken from yet. -/
  rest : Text
  ending : Input.Ending := .closed
  /-- How much of the rest the reader of words has fetched. -/
  buffer : Input.Buffer
  deriving DecidableEq

inductive InputError where
  | atEnd
  | unreadable (reason : Text)
  | notInteger (word : Text)
  deriving DecidableEq

namespace InputError

def message : InputError → Text
  | atEnd => "EOF"
  | unreadable reason => "read input: " ++ reason
  | notInteger word => word.quote ++ " is not a 32-bit integer"

end InputError

namespace Input

def ofText (t : Text) (failure : Option Text) : Input :=
  let ending :=
    match failure with
    | none => Ending.closed
    | some reason => .failed reason
  { rest := t, ending, buffer := { waiting := t.size } }

/-- The bytes that it takes to see that `word` ends where `after` begins. -/
def extent (word after : Text) : Nat :=
  match after with
  | [] => word.size
  | g :: _ => word.size + g.size

/-- Whether a word and the blank or the end behind it do not fit the window. -/
def isOverlong (word after : Text) : Bool :=
  match after with
  | [] => window ≤ word.size
  | g :: _ => window < word.size + g.size

/-- What every request is answered once all words are taken. -/
def Ending.error : Ending → InputError
  | closed => .atEnd
  | failed reason => .unreadable reason
  | overlong _ => .unreadable "bufio.Scanner: token too long"

def Ending.isOverlong : Ending → Bool
  | overlong _ => true
  | _ => false

/-- The buffer behind some blanks and a word. A blank leaves it as soon as it is held whole. -/
def Buffer.pass (b : Buffer) (blanks word after : Text) : Buffer :=
  (blanks.foldl (fun b g => b.take g.size) b).take (extent word after)

/-- Takes the next word as an integer, and the blank behind it. A word that does not fit the window
is refused; what the window holds of it is then the last word. -/
def next (i : Input) : Except InputError Int32 × Input :=
  let blanks := i.rest.takeWhile Glyph.isBlank
  let word := i.rest.trimLeft.takeWhile (!·.isBlank)
  let after := i.rest.trimLeft.dropWhile (!·.isBlank)
  if word = [] then (.error i.ending.error, { i with rest := [], buffer := i.buffer.drain })
  else if i.ending.isOverlong = false ∧ isOverlong word after then
    let (held, beyond) := Text.cutAt window (word ++ after)
    let ending := Ending.overlong beyond
    (.error ending.error,
      { rest := held, ending, buffer := { capacity := window, held := window } })
  else
    let taken := { i with rest := after.tail, buffer := i.buffer.pass blanks word after }
    match Numeral.readWord? .decimal word with
    | some n => (.ok n, taken)
    | none => (.error (.notInteger word), taken)

/-- Takes as a text all that has not been fetched. What the buffer holds is kept for words. -/
def takeAll (i : Input) : Except Text Text × Input :=
  let (held, unfetched) := Text.cutAt i.buffer.held i.rest
  let kept := { i with rest := held, buffer := { i.buffer with waiting := 0 } }
  match i.ending with
  | .closed => (.ok unfetched, kept)
  | .failed reason => (.error reason, kept)
  | .overlong beyond => (.ok beyond, { kept with ending := .overlong [] })

end Input

end MiniPascal
