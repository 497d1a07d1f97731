import DiffAlgebra.Text.Printable

/-!
# Quoted text

Text and bytes are written between apostrophes, or between quotation marks if they hold an
apostrophe and no quotation mark. The mark in use, the backslash, line ends, tabs and everything
unprintable are escaped; the shortest numbered escape that fits is used.
-/

namespace DiffAlgebra.Text

/-- The mark that encloses text which holds the given characters. -/
def markFor (hasApostrophe hasQuotation : Bool) : Char :=
  if hasApostrophe && !hasQuotation then '"' else '\''

/-- The number `n` in lower-case hexadecimal, with at least `width` digits. -/
def hexadecimal (width n : Nat) : List Char :=
  let ds := Nat.toDigits 16 n
  List.replicate (width - ds.length) '0' ++ ds

def numbered (n : Nat) : List Char :=
  if n < 0x100 then '\\' :: 'x' :: hexadecimal 2 n
  else if n < 0x10000 then '\\' :: 'u' :: hexadecimal 4 n
  else '\\' :: 'U' :: hexadecimal 8 n

def escapeChar (mark c : Char) : List Char :=
  if c = mark ∨ c = '\\' then ['\\', c]
  else if c = '\n' then ['\\', 'n']
  else if c = '\r' then ['\\', 'r']
  else if c = '\t' then ['\\', 't']
  else if isPrintable c then [c]
  else numbered c.toNat

def quote (s : String) : String :=
  let cs := s.toList
  let mark := markFor (cs.contains '\'') (cs.contains '"')
  String.ofList (mark :: cs.flatMap (escapeChar mark) ++ [mark])

def escapeByte (mark : Char) (b : UInt8) : List Char :=
  if b.toNat < 128 then escapeChar mark (Char.ofNat b.toNat) else numbered b.toNat

def quoteBytes (bs : List UInt8) : String :=
  let mark := markFor (bs.contains 39) (bs.contains 34)
  String.ofList ('b' :: mark :: bs.flatMap (escapeByte mark) ++ [mark])

def commaSeparated (parts : List String) : String := ", ".intercalate parts

/-- A parenthesised sequence; one part alone is followed by a comma. -/
def parenthesised : List String → String
  | [p] => "(" ++ p ++ ",)"
  | ps => "(" ++ commaSeparated ps ++ ")"

end DiffAlgebra.Text
