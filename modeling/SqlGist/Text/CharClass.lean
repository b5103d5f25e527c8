import SqlGist.Text.CharRanges

/-!
# Character Classes

The four classes the lexer tells apart. Blanks, letters and numerals are
those of Unicode, so `表` opens a bare word and U+3000 ends one; a digit of a
number is an ASCII digit and nothing else.

Core's classes know ASCII alone. They are kept for the ASCII half of each
class, where a decision is two comparisons and evaluates in the kernel, and
the tables of `CharRanges` are asked only above it.

## Main definitions

* `isBlank`: The Unicode property `White_Space`.
* `isLetter`: The Unicode property `Alphabetic`.
* `isAlphanumeric`: A letter, or a number of any kind.

## Theorems

* `isBlank_of_isWhitespace`: Core's whitespace is blank.
* `isLetter_of_isAlpha`: Core's letters are letters.
* `isAlphanumeric_of_isDigit`: A digit is alphanumeric.
* `isLetter_iff_of_ascii`: On ASCII, letters are core's letters.
-/

namespace SqlGist

namespace CharClass

/-- Whether a code point lies in one of the closed ranges. -/
def inRanges (ranges : List (Nat × Nat)) (n : Nat) : Bool :=
  ranges.any fun r => r.1 ≤ n && n ≤ r.2

/-- The blanks: the ASCII controls from tab to carriage return, the space,
    and the separators of the other blocks. -/
def blankRanges : List (Nat × Nat) :=
  [(0x9, 0xD), (0x20, 0x20), (0x85, 0x85), (0xA0, 0xA0), (0x1680, 0x1680), (0x2000, 0x200A),
    (0x2028, 0x2029), (0x202F, 0x202F), (0x205F, 0x205F), (0x3000, 0x3000)]

/-- Whether a character separates tokens: the Unicode property
    `White_Space`. -/
def isBlank (c : Char) : Bool :=
  inRanges blankRanges c.toNat

/-- Whether a character can open a bare word: the Unicode property
    `Alphabetic`. -/
def isLetter (c : Char) : Bool :=
  c.isAlpha || (128 ≤ c.toNat && inRanges letterRanges c.toNat)

/-- Whether a character is a number of any kind: a digit, a digit of another
    script, a letter number or a fraction. -/
def isNumeral (c : Char) : Bool :=
  c.isDigit || (128 ≤ c.toNat && inRanges numeralRanges c.toNat)

/-- Whether a character is a letter or a number. -/
def isAlphanumeric (c : Char) : Bool :=
  isLetter c || isNumeral c

/-- Whether a character can go on a bare word. The dollar sign counts, although
    it cannot open one. -/
def isWordChar (c : Char) : Bool :=
  isAlphanumeric c || c = '_' || c = '$'

theorem isBlank_of_isWhitespace {c : Char} (h : c.isWhitespace = true) : isBlank c = true := by
  simp only [Char.isWhitespace, Bool.or_eq_true, decide_eq_true_eq] at h
  rcases h with ((rfl | rfl) | rfl) | rfl <;> decide

theorem isLetter_of_isAlpha {c : Char} (h : c.isAlpha = true) : isLetter c = true := by
  simp only [isLetter, h, Bool.true_or]

theorem isAlphanumeric_of_isDigit {c : Char} (h : c.isDigit = true) :
    isAlphanumeric c = true := by
  simp only [isAlphanumeric, isNumeral, h, Bool.true_or, Bool.or_true]

theorem isLetter_iff_of_ascii {c : Char} (h : c.toNat < 128) : isLetter c = c.isAlpha := by
  simp only [isLetter, show ¬ 128 ≤ c.toNat by omega, decide_false, Bool.false_and, Bool.or_false]

end CharClass

end SqlGist
