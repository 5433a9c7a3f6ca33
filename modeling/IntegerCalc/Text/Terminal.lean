/-! Text made safe for a terminal. The control characters that a terminal may take for
commands, or for parts of one, are shown by their numbers; all other characters stand
for themselves. As a backslash is one of these, two texts may be shown alike. -/

namespace IntegerCalc.Text

/-- Bell, backspace, form feed, escape and delete. -/
def isCommandChar (c : Char) : Bool := c ∈ ['\x07', '\x08', '\x0C', '\x1B', '\x7F']

/-- The second block of control characters, which has a command for each character. -/
def isHighControl (c : Char) : Bool := 0x80 ≤ c.toNat && c.toNat ≤ 0x9F

/-- The code point in hexadecimal, with two digits at least. -/
def hexadecimal (c : Char) : List Char := (Nat.toDigits 16 c.toNat).leftpad 2 '0'

def shownChar (c : Char) : List Char :=
  if isCommandChar c then ['\\', 'x'] ++ hexadecimal c
  else if isHighControl c then ['\\', 'u', '\x7b'] ++ hexadecimal c ++ ['\x7d']
  else [c]

def shown (text : String) : String := String.ofList (text.toList.flatMap shownChar)

end IntegerCalc.Text
