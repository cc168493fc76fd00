/-!
# Blank characters

The property `White_Space` of the Unicode character database: 25 code points.

* `isBlank`   the characters with the property;
* `trim`      a text without the blanks at its ends.
-/

namespace PropertyIndex.Text

/-- the characters with the Unicode property `White_Space` -/
def isBlank (c : Char) : Bool :=
  let n := c.toNat
  (0x09 ≤ n && n ≤ 0x0D) || n = 0x20 || n = 0x85 || n = 0xA0 || n = 0x1680 ||
    (0x2000 ≤ n && n ≤ 0x200A) || n = 0x2028 || n = 0x2029 || n = 0x202F || n = 0x205F || n = 0x3000

/-- drops the blanks at both ends -/
def trim (cs : List Char) : List Char :=
  ((cs.dropWhile isBlank).reverse.dropWhile isBlank).reverse

@[simp] theorem trim_nil : trim [] = [] := rfl

end PropertyIndex.Text
