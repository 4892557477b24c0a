import MiniPascal.Text.Basic

/-!
Numerals: integers written in decimal, and integers read in a fixed base or in the base that their
prefix names, within a given number of bits.
-/

namespace MiniPascal

namespace Numeral

/-- The decimal digits of a natural number, without leading zeros. -/
def ofNat (n : Nat) : Text := Text.ofChars (Nat.toDigits 10 n)

/-- The decimal numeral of an integer: a minus sign if it is negative, then its digits. -/
def ofInt : Int → Text
  | .ofNat n => ofNat n
  | .negSucc n => .char '-' :: ofNat (n + 1)

def ofWord (w : Int32) : Text := ofInt w.toInt

/-- Why a text is not the numeral of an integer in range. -/
inductive Problem where
  | malformed
  | outOfRange
  deriving DecidableEq

def digit? (c : Char) : Option Nat :=
  if '0' ≤ c ∧ c ≤ '9' then some (c.toNat - '0'.toNat)
  else if 'a' ≤ c ∧ c ≤ 'z' then some (c.toNat - 'a'.toNat + 10)
  else if 'A' ≤ c ∧ c ≤ 'Z' then some (c.toNat - 'A'.toNat + 10)
  else none

/-- The value of digits in `base` behind those that make `n`. The first digit that is none, or that
takes the value past `limit`, decides the problem. Underscores are passed over if `spaced`. -/
def magnitude (base limit : Nat) (spaced : Bool) (n : Nat) : List Char → Except Problem Nat
  | [] => .ok n
  | c :: cs =>
    if spaced && c == '_' then magnitude base limit spaced n cs
    else
      match digit? c with
      | none => .error .malformed
      | some d =>
        if base ≤ d then .error .malformed
        else if limit < n * base + d then .error .outOfRange
        else magnitude base limit spaced (n * base + d) cs

/-- Whether every underscore stands between two digits, where `after` tells if a digit or a base
mark stands in front. -/
def separates (after : Bool) : List Char → Bool
  | [] => after
  | c :: cs => if c = '_' then after && separates false cs else separates true cs

/-- The base that the front of a numeral names, and the digits behind it: `0x`, `0o` and `0b` need a
digit after them, any other leading zero means octal. -/
def detectBase : List Char → Nat × List Char
  | '0' :: c :: d :: cs =>
    match c.toLower with
    | 'x' => (16, d :: cs)
    | 'o' => (8, d :: cs)
    | 'b' => (2, d :: cs)
    | _ => (8, c :: d :: cs)
  | '0' :: cs => (8, cs)
  | cs => (10, cs)

/-- How the base of a numeral is found. -/
inductive Radix where
  | decimal
  | detected
  deriving DecidableEq

def readMagnitude (how : Radix) (limit : Nat) (cs : List Char) : Except Problem Nat :=
  match how with
  | .decimal => magnitude 10 limit false 0 cs
  | .detected =>
    let (base, digits) := detectBase cs
    match magnitude base limit true 0 digits with
    | .error p => .error p
    | .ok n => if separates (base != 10) digits then .ok n else .error .malformed

/-- Reads an integer of `bits` bits in two's complement: an optional sign, then its magnitude. -/
def read (how : Radix) (bits : Nat) (t : Text) : Except Problem Int :=
  let (negative, digits) : Bool × List Char :=
    match t.chars with
    | '+' :: cs => (false, cs)
    | '-' :: cs => (true, cs)
    | cs => (false, cs)
  if digits = [] then .error .malformed
  else
    match readMagnitude how (Nat.pow 2 bits - 1) digits with
    | .error p => .error p
    | .ok n =>
      if negative then
        if Nat.pow 2 (bits - 1) < n then .error .outOfRange else .ok (-(n : Int))
      else
        if Nat.pow 2 (bits - 1) ≤ n then .error .outOfRange else .ok n

/-- Reads a machine word. -/
def readWord? (how : Radix) (t : Text) : Option Int32 :=
  match read how 32 t with
  | .ok n => some (Int32.ofInt n)
  | .error _ => none

end Numeral

end MiniPascal
