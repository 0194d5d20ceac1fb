/-!
# Numbers that a double can hold

A double has fifty-three significant bits, and its numbers end below a power of two. `nearest`
rounds a natural number to that many bits, the even one of two that are equally near, and `limit`
is the least number that is rounded past the largest double. A number in decimal digits fits a
double if it lies below that limit: `fits` decides so for its exact value.
-/

set_option autoImplicit false
set_option relaxedAutoImplicit false

namespace CodeTrail.Double

/-- The number of fifty-three significant bits that is nearest to a natural number, and the even
one of two. -/
def nearest (number : Nat) : Nat :=
  if number < Nat.pow 2 53 then number
  else
    let unit := Nat.pow 2 (number.log2 - 52)
    let rest := number % unit
    let below := number / unit
    if 2 * rest < unit ∨ (2 * rest = unit ∧ below % 2 = 0) then below * unit
    else (below + 1) * unit

theorem nearest_of_lt (number : Nat) (h : number < Nat.pow 2 53) : nearest number = number := by
  simp only [nearest, h, if_true]

/-- The least number that is rounded past the largest double. -/
def limit : Nat := Nat.pow 2 1024 - Nat.pow 2 970

/-- The natural number that decimal digits denote, most significant first. -/
def number (digits : List Nat) : Nat :=
  digits.foldl (fun number digit ↦ 10 * number + digit) 0

/-- Whether decimal digits that count a power of ten fit a double. The number of digits decides so,
unless it is that of the limit. -/
def fits (digits : List Nat) (power : Int) : Bool :=
  let digits := digits.dropWhile (· == 0)
  let size : Int := digits.length + power
  if digits.isEmpty || size < 309 then true
  else if size > 309 then false
  else
    match power with
    | .ofNat power => number digits * Nat.pow 10 power < limit
    | .negSucc power => number digits < limit * Nat.pow 10 (power + 1)

end CodeTrail.Double
