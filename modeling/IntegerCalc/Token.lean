import IntegerCalc.Operator

/-! The tokens of an expression, the symbols that stand for them, and the form
in which a list of tokens is shown. -/

namespace IntegerCalc

/-- A number may be negative here, although a text has no way to write one. -/
inductive Token where
  | number (value : Int)
  | operator (op : Operator)
  | leftParen
  | rightParen
  deriving DecidableEq

namespace Token

/-- The token that a single character stands for. -/
def ofSymbol? : Char → Option Token
  | '+' => some (.operator .add)
  | '-' => some (.operator .sub)
  | '*' => some (.operator .mul)
  | '/' => some (.operator .div)
  | '(' => some .leftParen
  | ')' => some .rightParen
  | _ => none

@[simp] theorem ofSymbol?_symbol (op : Operator) : ofSymbol? op.symbol = some (.operator op) := by
  cases op <;> rfl

def label : Token → String
  | number value => "Number(" ++ toString value ++ ")"
  | operator op => "Operator(" ++ op.name ++ ")"
  | leftParen => "LeftParen"
  | rightParen => "RightParen"

/-- A list of tokens on one line, such as `[LeftParen, Number(3), RightParen]`. -/
def listing (tokens : List Token) : String :=
  "[" ++ ", ".intercalate (tokens.map label) ++ "]"

end Token

end IntegerCalc
