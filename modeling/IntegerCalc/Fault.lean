/-! What can go wrong in an evaluation: the tokens do not form an expression, or
a divisor is zero. -/

namespace IntegerCalc

inductive Fault where
  | malformedExpression
  | divisionByZero
  deriving DecidableEq

namespace Fault

/-- The fault as records and answers name it. -/
def name : Fault → String
  | malformedExpression => "MalformedExpression"
  | divisionByZero => "DivisionByZero"

/-- The fault as it is told to a user. -/
def message : Fault → String
  | malformedExpression => "Malformed expression."
  | divisionByZero => "Division by zero."

end Fault

end IntegerCalc
