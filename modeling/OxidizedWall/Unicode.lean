import OxidizedWall.Runtime

/-!
# Character classes

The classes of characters that the standard library and the regex engine decide. Those that need
the tables of the Unicode database are a parameter, of which only the ASCII part is known.
-/

namespace OxidizedWall

def isControl (c : Char) : Bool := c.toNat < 0x20 || (0x7F ≤ c.toNat && c.toNat < 0xA0)

/-- `char::is_whitespace`, which is also the class `\s`. -/
def isWhitespace (c : Char) : Bool :=
  let n := c.toNat
  (9 ≤ n && n ≤ 13) || n == 0x20 || n == 0x85 || n == 0xA0 || n == 0x1680 ||
    (0x2000 ≤ n && n ≤ 0x200A) || n == 0x2028 || n == 0x2029 || n == 0x202F || n == 0x205F ||
    n == 0x3000

structure Unicode where
  /-- `\d`: the decimal digits of all scripts. -/
  isDecimal : Char → Bool
  /-- `\w`: letters, marks, digits and connectors. -/
  isWord : Char → Bool
  isAlphanumeric : Char → Bool
  decimal_ascii : ∀ c, c.toNat < 128 → isDecimal c = c.isDigit
  word_ascii : ∀ c, c.toNat < 128 → isWord c = (c.isAlphanum || c == '_')
  alphanumeric_ascii : ∀ c, c.toNat < 128 → isAlphanumeric c = c.isAlphanum

def Unicode.ascii : Unicode where
  isDecimal := Char.isDigit
  isWord c := c.isAlphanum || c == '_'
  isAlphanumeric := Char.isAlphanum
  decimal_ascii _ _ := rfl
  word_ascii _ _ := rfl
  alphanumeric_ascii _ _ := rfl

/-- `str::to_lowercase`, on the ASCII text that header values are read as. -/
def toLowercase (s : Str) : Str := s.map Char.toLower

/-- The characters that `(?i)` takes for `c`: simple case folding adds two signs to ASCII. -/
def sameLetter (c d : Char) : Bool :=
  c.toLower == d.toLower || (c.toLower == 's' && d.toNat == 0x17F) ||
    (c.toLower == 'k' && d.toNat == 0x212A)

end OxidizedWall
