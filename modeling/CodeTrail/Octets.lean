import CodeTrail.Hex.Octets

/-!
# Byte strings of a fixed length

`Octets n` holds exactly `n` bytes. `Octets.lowest` takes them from the low end of a number given
by its hexadecimal digits, `Octets.read?` from a text that must have two digits for each of them,
and `Octets.text` writes them. `Address` and `Digest` are the two lengths that occur.
-/

set_option autoImplicit false
set_option relaxedAutoImplicit false

namespace CodeTrail

/-- A byte string of a fixed length. -/
structure Octets (length : Nat) where
  bytes : List UInt8
  length_bytes : bytes.length = length
  deriving DecidableEq

/-- The name of an account: twenty bytes. -/
abbrev Address := Octets 20

/-- A hash: thirty-two bytes. -/
abbrev Digest := Octets 32

namespace Octets

/-- Digits taken two at a time as bytes; a last digit without a partner is dropped. -/
def pairUp : List (Fin 16) → List UInt8
  | high :: low :: rest => Hex.byteOf high low :: pairUp rest
  | _ => []

theorem length_pairUp (digits : List (Fin 16)) : (pairUp digits).length = digits.length / 2 := by
  fun_induction pairUp digits with
  | case1 high low rest ih => simp only [List.length_cons, ih]; omega
  | case2 digits h =>
    match digits, h with
    | [], _ => rfl
    | [_], _ => simp
    | high :: low :: rest, h => exact (h high low rest rfl).elim

/-- The last digits of a number, with zeros in front where it has fewer. -/
def lastDigits (count : Nat) (digits : List (Fin 16)) : List (Fin 16) :=
  List.replicate (count - digits.length) 0 ++ digits.drop (digits.length - count)

theorem length_lastDigits (count : Nat) (digits : List (Fin 16)) :
    (lastDigits count digits).length = count := by
  simp only [lastDigits, List.length_append, List.length_replicate, List.length_drop]
  omega

/-- The low bytes of the number with the given digits. -/
def lowest (length : Nat) (digits : List (Fin 16)) : Octets length where
  bytes := pairUp (lastDigits (2 * length) digits)
  length_bytes := by rw [length_pairUp, length_lastDigits]; omega

/-- The bytes that a text denotes: two digits for each of them, of either case, behind at most one
`0x` or `0X`. -/
def read? (length : Nat) (text : String) : Option (Octets length) :=
  match Hex.digits? (Hex.dropMark text.toList) with
  | none => none
  | some digits =>
    if h : digits.length = 2 * length then
      some ⟨pairUp digits, by rw [length_pairUp, h]; omega⟩
    else none

/-- The bytes as lowercase digits behind `0x`. -/
def text {length : Nat} (octets : Octets length) : String :=
  Hex.marked octets.bytes

end Octets

end CodeTrail
