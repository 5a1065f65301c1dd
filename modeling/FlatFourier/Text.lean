namespace FlatFourier

abbrev Text := List Char

namespace Text

/-- First and last code point of each run of blanks, in increasing order. -/
def blankRanges : List (Nat × Nat) :=
  [(0x9, 0xd), (0x20, 0x20), (0x85, 0x85), (0xa0, 0xa0), (0x1680, 0x1680), (0x2000, 0x200a),
    (0x2028, 0x2029), (0x202f, 0x202f), (0x205f, 0x205f), (0x3000, 0x3000)]

def isBlank (c : Char) : Bool :=
  blankRanges.any fun range => range.1 ≤ c.toNat && c.toNat ≤ range.2

/-- Twenty-five code points are blank. -/
example : (blankRanges.map fun range => range.2 - range.1 + 1).sum = 25 := by decide

/-- The runs are in order and do not touch. -/
example : blankRanges.Pairwise fun a b => a.2 + 1 < b.1 := by decide

def trimStart (s : Text) : Text :=
  s.dropWhile isBlank

def trimEnd (s : Text) : Text :=
  (s.reverse.dropWhile isBlank).reverse

/-- Without the blanks at both ends. -/
def trim (s : Text) : Text :=
  trimEnd (trimStart s)

/-- The maximal runs of characters that are not blank. -/
def words (s : Text) : List Text :=
  (s.splitOnP isBlank).filter fun w => !w.isEmpty

/-- The lines of a text. A newline ends a line, so nothing follows a last newline. -/
def lines (s : Text) : List Text :=
  let pieces := s.splitOn '\n'
  if pieces.getLast? = some [] then pieces.dropLast else pieces

/-- What stands before and after the first occurrence of `mark`. -/
def cut (mark : Text) : Text → Option (Text × Text)
  | [] => if mark.isEmpty then some ([], []) else none
  | c :: s =>
    match mark.isPrefixOf? (c :: s) with
    | some rest => some ([], rest)
    | none => (cut mark s).map fun parts => (c :: parts.1, parts.2)

/-- The text between a given start and a given end that do not overlap. -/
def between (start finish s : Text) : Option Text :=
  (start.isPrefixOf? s).bind finish.isSuffixOf?

/-- Decimal digits and nothing else, at least one. -/
def isNumeral (s : Text) : Bool :=
  !s.isEmpty && s.all Char.isDigit

/-- The number that a row of decimal digits denotes. -/
def numeral (s : Text) : Nat :=
  Nat.ofDigitChars 10 s 0

/-- Counts, lengths and indices are below this bound, the number of 64-bit words. -/
def countBound : Nat := 0x10000000000000000

/-- A count in decimal, with an optional plus sign and any number of leading zeros. -/
def count? (s : Text) : Option Nat :=
  let digits := (['+'].isPrefixOf? s).getD s
  if isNumeral digits && numeral digits < countBound then some (numeral digits) else none

end Text

end FlatFourier
