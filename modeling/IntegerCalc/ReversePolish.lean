import IntegerCalc.Evaluation

/-! Reverse Polish form of a list of tokens, by position alone and without stacks.
Each operator has a release point further right, where it is written; numbers are
written where they stand. The form makes sense of every list of tokens in which
the parentheses are balanced. -/

namespace IntegerCalc.ReversePolish

inductive Instruction where
  | push (value : Int)
  | apply (op : Operator)
  deriving DecidableEq

/-- The parentheses still open after the tokens, from `depth` that were open before;
none if one is closed that was not open. -/
def openAfter (depth : Nat) : List Token → Option Nat
  | [] => some depth
  | .leftParen :: ts => openAfter (depth + 1) ts
  | .rightParen :: ts => if depth = 0 then none else openAfter (depth - 1) ts
  | _ :: ts => openAfter depth ts

def Balanced (ts : List Token) : Prop := openAfter 0 ts = some 0

instance (ts : List Token) : Decidable (Balanced ts) := inferInstanceAs (Decidable (_ = _))

/-- How many of the tokens that follow an operator of precedence `p` are passed
before it is released, with `depth` groups open that it is not in. It is released
at an operator of its own group that binds no tighter, at the end of its group, or
at the end of the tokens. -/
def wait (p depth : Nat) : List Token → Nat
  | [] => 0
  | .number _ :: ts => wait p depth ts + 1
  | .leftParen :: ts => wait p (depth + 1) ts + 1
  | .rightParen :: ts => if depth = 0 then 0 else wait p (depth - 1) ts + 1
  | .operator op :: ts =>
    if depth = 0 ∧ op.precedence ≤ p then 0 else wait p depth ts + 1

def releasePoint (ts : List Token) (i : Nat) (op : Operator) : Nat :=
  i + 1 + wait op.precedence 0 (ts.drop (i + 1))

/-- The operator at position `i`, if there is one and it is released at `k`. -/
def releasedAt (ts : List Token) (k i : Nat) : Option Instruction :=
  match ts[i]? with
  | some (.operator op) => if releasePoint ts i op = k then some (.apply op) else none
  | _ => none

def numberAt (ts : List Token) (k : Nat) : List Instruction :=
  match ts[k]? with
  | some (.number value) => [.push value]
  | _ => []

/-- At each position the operators released there, the latest first, and then the
number that stands there. -/
def ofTokens (ts : List Token) : List Instruction :=
  (List.range (ts.length + 1)).flatMap fun k =>
    (List.range k).reverse.filterMap (releasedAt ts k) ++ numberAt ts k

def step : List Int → Instruction → Except Fault (List Int)
  | stack, .push value => .ok (value :: stack)
  | rhs :: lhs :: stack, .apply op => (op.apply lhs rhs).map (· :: stack)
  | _, .apply _ => .error .malformedExpression

/-- The one value that the instructions leave on an empty stack. -/
def run (code : List Instruction) : Except Fault Int := do
  match ← code.foldlM step [] with
  | [value] => return value
  | _ => throw .malformedExpression

end IntegerCalc.ReversePolish
