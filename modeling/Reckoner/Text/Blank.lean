/-!
Blank characters. Three readers skip blanks and each has its own set: between
tokens only the five layout characters count, around a name every blank
character of Unicode and the four information separators, around a number the
same without the separators.
-/

namespace Reckoner.Text

/-- The blanks allowed between tokens: space, tab, form feed, return, line feed. -/
def isLayout (c : Char) : Bool :=
  c == ' ' || c == '\t' || c == '\x0c' || c == '\r' || c == '\n'

def isSeparator (c : Char) : Bool := 0x1c ≤ c.toNat && c.toNat ≤ 0x1f

/-- Closed ranges of blank code points, ascending, separators left out. -/
def blankRanges : List (Nat × Nat) :=
  [(0x09, 0x0d), (0x20, 0x20), (0x85, 0x85), (0xa0, 0xa0), (0x1680, 0x1680), (0x2000, 0x200a),
   (0x2028, 0x2029), (0x202f, 0x202f), (0x205f, 0x205f), (0x3000, 0x3000)]

/-- The blanks allowed around a number. -/
def isSpacing (c : Char) : Bool :=
  blankRanges.any fun range => range.1 ≤ c.toNat && c.toNat ≤ range.2

/-- The blanks dropped around a name. -/
def isBlank (c : Char) : Bool := isSpacing c || isSeparator c

def trim (blank : Char → Bool) (text : List Char) : List Char :=
  ((text.dropWhile blank).reverse.dropWhile blank).reverse

theorem isSpacing_of_isLayout {c : Char} (h : isLayout c = true) : isSpacing c = true := by
  simp only [isLayout, Bool.or_eq_true, beq_iff_eq] at h
  rcases h with (((h | h) | h) | h) | h <;> subst h <;> decide

end Reckoner.Text
