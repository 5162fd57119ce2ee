/-!
# Blank and control characters

`isBlank` is the Unicode property White_Space, `isControl` the general category Cc.
-/

namespace ScriptTree

/-- The characters with the Unicode property White_Space. -/
def isBlank (c : Char) : Bool :=
  let n := c.toNat
  (9 ≤ n && n ≤ 13) || n == 0x20 || n == 0x85 || n == 0xa0 || n == 0x1680 ||
    (0x2000 ≤ n && n ≤ 0x200a) || n == 0x2028 || n == 0x2029 || n == 0x202f || n == 0x205f ||
    n == 0x3000

/-- The characters of the Unicode category Cc. -/
def isControl (c : Char) : Bool :=
  let n := c.toNat
  n < 0x20 || (0x7f ≤ n && n < 0xa0)

def trimEnd (text : List Char) : List Char :=
  (text.reverse.dropWhile isBlank).reverse

end ScriptTree
