/-!
# Durations in messages

A duration below a second is written in milliseconds, and from a second on in seconds with at most
three decimals and no needless zeros. No time at all is written in the smallest unit.
-/

set_option autoImplicit false
set_option relaxedAutoImplicit false

namespace CodeTrail.Code

/-- The decimals of a number of thousandths, without zeros at the end. -/
def decimals (thousandths : Nat) : List Char :=
  let digits := [thousandths / 100, thousandths / 10 % 10, thousandths % 10].map Nat.digitChar
  (digits.reverse.dropWhile (· == '0')).reverse

/-- A number of milliseconds in words. -/
def durationText (milliseconds : Nat) : String :=
  if milliseconds = 0 then "0ns"
  else if milliseconds < 1000 then toString milliseconds ++ "ms"
  else
    let fraction := decimals (milliseconds % 1000)
    toString (milliseconds / 1000) ++
      (if fraction.isEmpty then "" else "." ++ String.ofList fraction) ++ "s"

end CodeTrail.Code
