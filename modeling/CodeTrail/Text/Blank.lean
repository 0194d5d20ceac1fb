/-!
# White space at the ends of a text

`isBlank` is the Unicode property White_Space, all twenty-five characters of it, and `trim` drops
the blanks at both ends of a text and none inside it.
-/

set_option autoImplicit false
set_option relaxedAutoImplicit false

namespace CodeTrail.Text

/-- The runs of code points with the Unicode property White_Space, both ends of a run included. -/
def blankRuns : List (Nat × Nat) :=
  [(0x09, 0x0d), (0x20, 0x20), (0x85, 0x85), (0xa0, 0xa0), (0x1680, 0x1680), (0x2000, 0x200a),
    (0x2028, 0x2029), (0x202f, 0x202f), (0x205f, 0x205f), (0x3000, 0x3000)]

/-- Whether a character has the Unicode property White_Space. -/
def isBlank (character : Char) : Bool :=
  blankRuns.any fun run ↦ run.1 ≤ character.toNat && character.toNat ≤ run.2

/-- A text without the blanks at its two ends. -/
def trim (text : List Char) : List Char :=
  ((text.dropWhile isBlank).reverse.dropWhile isBlank).reverse

/-- The blanks of the ASCII range are those that the standard library names. -/
theorem isBlank_of_isWhitespace (character : Char) (h : character.isWhitespace = true) :
    isBlank character = true := by
  simp only [Char.isWhitespace, Bool.or_eq_true, decide_eq_true_eq] at h
  rcases h with ((rfl | rfl) | rfl) | rfl <;> decide

end CodeTrail.Text
