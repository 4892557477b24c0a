import MiniPascal.Text.Numeral

/-!
Quantities for people to read: byte counts with a unit, and counts with their thousands set off.
-/

namespace MiniPascal

namespace Quantity

/-- The largest power of 1000 up to `n`, looking at no more than the given units above `power`, and
the unit's name. -/
def scale (n : Nat) : Nat → Text → List Text → Nat × Text
  | power, unit, [] => (power, unit)
  | power, unit, bigger :: units =>
    if n < power * 1000 then (power, unit) else scale n (power * 1000) bigger units

/-- A byte count in the largest unit it fills, a power of 1000. It is rounded to tenths, a half
upwards; below 10 the tenth is shown, from 10 on it is rounded away, a half to the even
neighbour. -/
def ofBytes (n : Nat) : Text :=
  if n < 10 then Numeral.ofNat n ++ " B"
  else
    let (power, unit) := scale n 1 "B" ["kB", "MB", "GB", "TB", "PB", "EB"]
    let tenths := (20 * n + power) / (2 * power)
    let whole := tenths / 10
    let part := tenths % 10
    let count : Text :=
      if whole < 10 then Numeral.ofNat whole ++ "." ++ Numeral.ofNat part
      else if 5 < part || (part == 5 && whole % 2 == 1) then Numeral.ofNat (whole + 1)
      else Numeral.ofNat whole
    count ++ " " ++ unit

/-- Puts a comma before every third character from the end; the list and the result are
reversed. -/
def commas : List Char → List Char
  | a :: b :: c :: d :: cs => a :: b :: c :: ',' :: commas (d :: cs)
  | cs => cs

/-- A count with a comma between its thousands. -/
def ofCount (n : Nat) : Text := Text.ofChars (commas (Nat.toDigits 10 n).reverse).reverse

end Quantity

end MiniPascal
