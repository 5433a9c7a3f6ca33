import IntegerCalc.Fault

/-! The four operators of integer arithmetic: how they are written, how tightly
they bind and what they compute. -/

namespace IntegerCalc

inductive Operator where
  | add | sub | mul | div
  deriving DecidableEq

namespace Operator

def symbol : Operator → Char
  | add => '+'
  | sub => '-'
  | mul => '*'
  | div => '/'

def name : Operator → String
  | add => "Add"
  | sub => "Sub"
  | mul => "Mul"
  | div => "Div"

/-- The larger number binds tighter. -/
def precedence : Operator → Nat
  | add | sub => 1
  | mul | div => 2

theorem precedence_eq (op : Operator) : op.precedence = 1 ∨ op.precedence = 2 := by
  cases op <;> simp [precedence]

/-- The integer that an operator computes. A quotient is truncated toward zero,
and one by zero counts as zero here. -/
def compute : Operator → Int → Int → Int
  | add, lhs, rhs => lhs + rhs
  | sub, lhs, rhs => lhs - rhs
  | mul, lhs, rhs => lhs * rhs
  | div, lhs, rhs => lhs.tdiv rhs

/-- Exact arithmetic on integers of any size, which refuses to divide by zero. -/
def apply (op : Operator) (lhs rhs : Int) : Except Fault Int :=
  if op = div ∧ rhs = 0 then .error .divisionByZero else .ok (op.compute lhs rhs)

theorem apply_eq_ok {op : Operator} {lhs rhs value : Int} :
    op.apply lhs rhs = .ok value ↔ ¬(op = .div ∧ rhs = 0) ∧ op.compute lhs rhs = value := by
  unfold apply
  split <;> simp_all

theorem apply_eq_error {op : Operator} {lhs rhs : Int} {fault : Fault} :
    op.apply lhs rhs = .error fault ↔ (op = .div ∧ rhs = 0) ∧ fault = .divisionByZero := by
  unfold apply
  split <;> simp_all [eq_comm]

end Operator

end IntegerCalc
