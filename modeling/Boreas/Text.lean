import Boreas.Wire
import Boreas.Words

/-! # Text

Strings as lists of characters, with the operations of `str` that the readers of filter lists use; `utf8` is the
same text as bytes. -/

namespace Boreas

abbrev Text := List Char

namespace Text

def isWhitespace (c : Char) : Bool :=
  let n := c.toNat
  (9 ≤ n && n ≤ 13) || n == 0x20 || n == 0x85 || n == 0xa0 || n == 0x1680 || (0x2000 ≤ n && n ≤ 0x200a) ||
    n == 0x2028 || n == 0x2029 || n == 0x202f || n == 0x205f || n == 0x3000

def trim (t : Text) : Text := Words.trim isWhitespace t

def splitWhitespace (t : Text) : List Text := Words.words isWhitespace t

/-- One carriage return before a line feed belongs to the line end. -/
def stripCr (line : Text) : Text := if line.getLast? = some '\r' then line.dropLast else line

def lines (t : Text) : List Text :=
  let pieces := t.splitOn '\n'
  -- What follows the last line feed is a line only if there is something, and keeps its carriage return.
  pieces.dropLast.map stripCr ++ (pieces.getLast?.toList.filter (· ≠ []))

def stripPrefix (p t : Text) : Option Text := if p <+: t then some (t.drop p.length) else none

def stripSuffix (s t : Text) : Option Text := if s <:+ t then some (t.take (t.length - s.length)) else none

def contains (t p : Text) : Bool := p <:+: t

def utf8 (t : Text) : Bytes := t.flatMap String.utf8EncodeChar

end Text

end Boreas
