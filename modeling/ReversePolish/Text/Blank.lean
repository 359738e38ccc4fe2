/-
Blank characters and what is left of a text once the blanks at its end are gone.

A blank is a character with the Unicode property White_Space.  There are 25 of
them, and only six are among the ones that programs usually call whitespace: the
no-break space, the two line separators and the ideographic space count as well,
while the zero-width space and the byte order mark do not.
-/

namespace ReversePolish.Text

/-- The code points with the property White_Space, as closed ranges. -/
def blankRanges : List (Nat × Nat) :=
  [(0x0009, 0x000D), (0x0020, 0x0020), (0x0085, 0x0085), (0x00A0, 0x00A0), (0x1680, 0x1680),
   (0x2000, 0x200A), (0x2028, 0x2029), (0x202F, 0x202F), (0x205F, 0x205F), (0x3000, 0x3000)]

/-- Whether `c` has the Unicode property White_Space. -/
def isBlank (c : Char) : Bool :=
  blankRanges.any fun r => r.1 ≤ c.toNat && c.toNat ≤ r.2

/-- The text without the blanks at its end. -/
def trimEnd (cs : List Char) : List Char :=
  (cs.reverse.dropWhile isBlank).reverse

end ReversePolish.Text
