/-!
# White space

The characters of the Unicode property White_Space: the blanks and line ends of ASCII, and those of
other scripts. The zero-width characters are not among them.
-/

set_option autoImplicit false

namespace ThreeAddress

def isWhiteSpace (c : Char) : Bool :=
  let n := c.toNat
  (0x09 ≤ n && n ≤ 0x0D) || n = 0x20 || n = 0x85 || n = 0xA0 || n = 0x1680
    || (0x2000 ≤ n && n ≤ 0x200A) || n = 0x2028 || n = 0x2029 || n = 0x202F || n = 0x205F
    || n = 0x3000

def trimEndWhiteSpace (cs : List Char) : List Char := (cs.reverse.dropWhile isWhiteSpace).reverse

def trimWhiteSpace (cs : List Char) : List Char := trimEndWhiteSpace (cs.dropWhile isWhiteSpace)

end ThreeAddress
