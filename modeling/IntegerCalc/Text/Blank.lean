/-! White space, as the Unicode property White_Space has it. -/

namespace IntegerCalc.Text

/-- First and last code point of every stretch of white space. -/
def blankRanges : List (Nat × Nat) :=
  [(0x09, 0x0D), (0x20, 0x20), (0x85, 0x85), (0xA0, 0xA0), (0x1680, 0x1680), (0x2000, 0x200A),
    (0x2028, 0x2029), (0x202F, 0x202F), (0x205F, 0x205F), (0x3000, 0x3000)]

def isBlank (c : Char) : Bool :=
  blankRanges.any fun range => range.1 ≤ c.toNat && c.toNat ≤ range.2

/-- The ranges hold the property's twenty-five characters. -/
theorem length_blankRanges :
    (blankRanges.flatMap fun range => List.range' range.1 (range.2 + 1 - range.1)).length = 25 := by
  decide

end IntegerCalc.Text
