import IntegerCalc.Record
import IntegerCalc.Text.Lines

/-! A script holds one expression a line. Lines of white space alone count, but
ask for nothing. Running a script is a sequence of events, each of which is a
line for one of the two outputs or a record. -/

namespace IntegerCalc

inductive Event where
  | out (line : String)
  | err (line : String)
  | log (record : Record)

namespace Script

/-- A line that asks for a calculation, with its number counted from one. -/
structure Entry where
  number : Nat
  calculation : Calculation

def isBlankLine (line : String) : Bool := line.toList.all Text.isBlank

def entries (script : String) : List Entry :=
  ((Text.lines script).zipIdx 1).filterMap fun (line, number) =>
    if isBlankLine line then none else some ⟨number, calculate line⟩

/-- The value of the line, or its number and what is wrong with it. -/
def Entry.outcome (entry : Entry) : Event :=
  match entry.calculation.report.result with
  | .ok value => .out (toString value)
  | .error fault => .err ("Error on line " ++ toString entry.number ++ ": " ++ fault.message)

/-- To show the tokens a line is read an extra time, which is recorded as well. -/
def Entry.listing (entry : Entry) : List Event :=
  entry.calculation.reading.records.map .log ++
    [.out (Token.listing entry.calculation.reading.tokens)]

def Entry.events (showTokens : Bool) (entry : Entry) : List Event :=
  (if showTokens then entry.listing else []) ++
    entry.calculation.records.map .log ++ [entry.outcome]

def events (showTokens : Bool) (script : String) : List Event :=
  (entries script).flatMap (Entry.events showTokens)

/-- A script succeeds if each of its lines does. -/
def succeeded (script : String) : Bool :=
  (entries script).all fun entry => entry.calculation.report.result.isOk

end Script

end IntegerCalc
