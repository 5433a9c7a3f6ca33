import IntegerCalc.Token
import Mathlib.Algebra.Group.Nat.Defs

/-! The spelling of tokens. A text is a sequence of significant characters with
other characters among them that do not matter; its tokens are the runs of digits
and the single symbols in that sequence. In the other direction tokens are written
out as decimal literals and symbols. -/

namespace IntegerCalc.Spelling

def isSignificant (c : Char) : Bool := c.isDigit || "+-*/()".toList.contains c

/-- The characters of a text that matter. -/
def significant (text : String) : List Char := text.toList.filter isSignificant

/-- The number that a run of digits stands for, by the places of the digits. -/
def placeValue : List Char → Nat
  | [] => 0
  | c :: cs => (c.toNat - '0'.toNat) * 10 ^ cs.length + placeValue cs

def tokenOfRun (run : List Char) : Option Token :=
  if run.all Char.isDigit then some (.number (placeValue run))
  else run.head?.bind Token.ofSymbol?

/-- Maximal runs of digits, and symbols one by one. -/
def runs (cs : List Char) : List (List Char) := cs.splitBy fun a b => a.isDigit && b.isDigit

def tokensOf (cs : List Char) : List Token := (runs cs).filterMap tokenOfRun

/-- A token as it is written, a number after some zeros more than it needs. -/
def write (zeros : Nat) : Token → List Char
  | .number value => List.replicate zeros '0' ++ (toString value).toList
  | .operator op => [op.symbol]
  | .leftParen => ['(']
  | .rightParen => [')']

/-- Tokens written side by side, each with the zeros before it. -/
def render (tokens : List (Nat × Token)) : String :=
  String.ofList (tokens.flatMap fun entry => write entry.1 entry.2)

/-- The tokens written without needless zeros. -/
def canonical (tokens : List Token) : String := render (tokens.map (0, ·))

end IntegerCalc.Spelling
