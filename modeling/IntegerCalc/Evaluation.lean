import IntegerCalc.Token

/-! Evaluation with two stacks, one of operands and one of operators and open
parentheses that still wait. An operator waits until one arrives that binds no
tighter, or until its group or the whole expression ends. A step that fails
leaves stacks of its own, from which an evaluation can go on. -/

namespace IntegerCalc

/-- What waits for more tokens. No operator is applied past an open parenthesis. -/
inductive Pending where
  | operator (op : Operator)
  | leftParen
  deriving DecidableEq

def Pending.label : Pending → String
  | operator op => "Operator(" ++ op.name ++ ")"
  | leftParen => "LeftParen"

/-- One application of an operator that succeeded. -/
structure Reduction where
  lhs : Int
  op : Operator
  rhs : Int
  value : Int
  deriving DecidableEq

/-- The state of an evaluation: the two stacks and the reductions made so far,
each with the latest entry first. -/
structure Evaluation where
  operands : List Int := []
  pending : List Pending := []
  history : List Reduction := []

/-- Why a step failed, and the state it left. -/
structure Failure where
  fault : Fault
  left : Evaluation

/-- How an evaluation ended: its reductions in the order they were made, and
whether every token had been accepted by then. -/
structure Report where
  result : Except Fault Int
  reductions : List Reduction
  complete : Bool

namespace Evaluation

/-- Applies an operator to the two latest operands. A failure consumes them as
well: both of a division by zero, or the only one there is. -/
def reduce (op : Operator) : List Int → Except (Fault × List Int) (Reduction × List Int)
  | rhs :: lhs :: rest =>
    match op.apply lhs rhs with
    | .ok value => .ok (⟨lhs, op, rhs, value⟩, value :: rest)
    | .error fault => .error (fault, rest)
  | _ => .error (.malformedExpression, [])

/-- Applies waiting operators, latest first, as long as they are `ready`. It stops
at an open parenthesis. An operator that fails no longer waits. -/
def unwind (ready : Operator → Bool) (operands : List Int) (history : List Reduction) :
    List Pending → Except Failure Evaluation
  | [] => .ok ⟨operands, [], history⟩
  | .leftParen :: rest => .ok ⟨operands, .leftParen :: rest, history⟩
  | .operator op :: rest =>
    if ready op then
      match reduce op operands with
      | .ok (step, operands) => unwind ready operands (step :: history) rest
      | .error (fault, operands) => .error ⟨fault, operands, rest, history⟩
    else .ok ⟨operands, .operator op :: rest, history⟩

/-- Applies whatever binds at least as tightly as `op`, which then waits itself. -/
def pushOperator (op : Operator) (e : Evaluation) : Except Failure Evaluation := do
  let e ← unwind (fun top => op.precedence ≤ top.precedence) e.operands e.history e.pending
  return { e with pending := .operator op :: e.pending }

/-- Applies everything back to the matching open parenthesis, which is removed. -/
def closeGroup (e : Evaluation) : Except Failure Evaluation := do
  let e ← unwind (fun _ => true) e.operands e.history e.pending
  match e.pending with
  | .leftParen :: rest => return { e with pending := rest }
  | _ => throw ⟨.malformedExpression, e⟩

def feed (e : Evaluation) : Token → Except Failure Evaluation
  | .number value => .ok { e with operands := value :: e.operands }
  | .leftParen => .ok { e with pending := .leftParen :: e.pending }
  | .rightParen => e.closeGroup
  | .operator op => e.pushOperator op

/-- Feeds tokens up to the first that fails. -/
def feedAll (e : Evaluation) (tokens : List Token) : Except Failure Evaluation :=
  tokens.foldlM feed e

@[simp] theorem feedAll_nil (e : Evaluation) : e.feedAll [] = .ok e := rfl

@[simp] theorem feedAll_cons (e : Evaluation) (t : Token) (ts : List Token) :
    e.feedAll (t :: ts) = (e.feed t).bind fun e => e.feedAll ts := rfl

theorem feedAll_append (e : Evaluation) (a b : List Token) :
    e.feedAll (a ++ b) = (e.feedAll a).bind fun e => e.feedAll b := List.foldlM_append

/-- Applies all that waits. One value must remain and no parenthesis may be open. -/
def finish (e : Evaluation) : Report :=
  match unwind (fun _ => true) e.operands e.history e.pending with
  | .error failure => ⟨.error failure.fault, failure.left.history.reverse, true⟩
  | .ok e =>
    match e.operands, e.pending with
    | [value], [] => ⟨.ok value, e.history.reverse, true⟩
    | _, _ => ⟨.error .malformedExpression, e.history.reverse, true⟩

end Evaluation

def report (tokens : List Token) : Report :=
  match Evaluation.feedAll {} tokens with
  | .ok e => e.finish
  | .error failure => ⟨.error failure.fault, failure.left.history.reverse, false⟩

/-- The value of a list of tokens. -/
def evaluate (tokens : List Token) : Except Fault Int := (report tokens).result

end IntegerCalc
