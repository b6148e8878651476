/-!
# White space

The characters that separate words of a pragma and that are cut off the ends of texts: the
twenty-five characters with the Unicode property `White_Space`. Texts are handled as lists of
characters; `trim` works on strings.
-/

namespace LoopDirectives.Text

/-- A character of Unicode white space. -/
def isBlank (c : Char) : Bool :=
  let code := c.toNat
  (9 ≤ code && code ≤ 13) || code == 0x20 || code == 0x85 || code == 0xA0 || code == 0x1680 ||
    (0x2000 ≤ code && code ≤ 0x200A) || code == 0x2028 || code == 0x2029 || code == 0x202F ||
    code == 0x205F || code == 0x3000

def trimStart (text : List Char) : List Char :=
  text.dropWhile isBlank

def trimEnd (text : List Char) : List Char :=
  (text.reverse.dropWhile isBlank).reverse

def trimBoth (text : List Char) : List Char :=
  trimEnd (trimStart text)

def trim (text : String) : String :=
  String.ofList (trimBoth text.toList)

end LoopDirectives.Text
