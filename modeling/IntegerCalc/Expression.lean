import IntegerCalc.Evaluation

/-! Infix expressions as trees. Sums are made of products and products of factors,
both grouped from the left; a factor is a number or a sum in parentheses. A tree
keeps every pair of parentheses, so that it spells one list of tokens. -/

namespace IntegerCalc

inductive Layer where
  | sum | product | factor

/-- The operators of the layers. Each joins an expression of its own layer and, on the
right, one of the layer below. -/
inductive Operator.Joins : Operator → Layer → Layer → Prop
  | add : Joins .add .sum .product
  | sub : Joins .sub .sum .product
  | mul : Joins .mul .product .factor
  | div : Joins .div .product .factor

inductive Expression : Layer → Type where
  | number (value : Int) : Expression .factor
  | group (body : Expression .sum) : Expression .factor
  | ofFactor (e : Expression .factor) : Expression .product
  | ofProduct (e : Expression .product) : Expression .sum
  | binary (op : Operator) {layer right : Layer} (h : op.Joins layer right)
      (lhs : Expression layer) (rhs : Expression right) : Expression layer

/-- Whether the reduction would have been a division by zero. -/
def Reduction.dividesByZero (r : Reduction) : Bool := r.op = .div && r.rhs = 0

/-- An operator of an expression with the values around it, whether it stands in
parentheses, and whether any operator follows its right operand. -/
structure Node where
  step : Reduction
  grouped : Bool
  followed : Bool

namespace Expression

def tokens {layer : Layer} : Expression layer → List Token
  | number value => [.number value]
  | group body => .leftParen :: body.tokens ++ [.rightParen]
  | ofFactor e => e.tokens
  | ofProduct e => e.tokens
  | binary op _ lhs rhs => lhs.tokens ++ .operator op :: rhs.tokens

/-- The exact value, provided that nothing is divided by zero. Quotients are truncated
toward zero. -/
def value {layer : Layer} : Expression layer → Int
  | number value => value
  | group body => body.value
  | ofFactor e => e.value
  | ofProduct e => e.value
  | binary .add _ lhs rhs => lhs.value + rhs.value
  | binary .sub _ lhs rhs => lhs.value - rhs.value
  | binary .mul _ lhs rhs => lhs.value * rhs.value
  | binary .div _ lhs rhs => lhs.value.tdiv rhs.value

/-- The operators in post-order with the values of their operands and their own, for
an expression that may stand in parentheses and may have operators after it. -/
def nodes (grouped followed : Bool) {layer : Layer} : Expression layer → List Node
  | number _ => []
  | group body => body.nodes true followed
  | ofFactor e => e.nodes grouped followed
  | ofProduct e => e.nodes grouped followed
  | binary op h lhs rhs =>
    lhs.nodes grouped true ++ rhs.nodes grouped followed ++
      [⟨⟨lhs.value, op, rhs.value, (binary op h lhs rhs).value⟩, grouped, followed⟩]

/-- What each operator computes from the values of its operands, in post-order. -/
def steps {layer : Layer} (e : Expression layer) : List Reduction :=
  (e.nodes false false).map Node.step

def dividesByZero {layer : Layer} (e : Expression layer) : Bool :=
  e.steps.any Reduction.dividesByZero

end Expression

/-- Two neighbouring tokens that no infix expression holds, but that evaluation
accepts: operands side by side, or an empty group. -/
def Token.juxtaposed : Token → Token → Bool
  | .number _, .number _ | .number _, .leftParen => true
  | .rightParen, .number _ | .rightParen, .leftParen => true
  | .leftParen, .rightParen => true
  | _, _ => false

end IntegerCalc
