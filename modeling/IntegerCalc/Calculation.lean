import IntegerCalc.Evaluation
import IntegerCalc.Token.Reading

/-! The calculation that a text asks for: the text is read completely, and then
its tokens are evaluated. -/

namespace IntegerCalc

structure Calculation where
  reading : Reading
  report : Report

def calculate (text : String) : Calculation :=
  let reading := read text
  ⟨reading, report reading.tokens⟩

/-- Only the tokens of a text matter to its evaluation. -/
theorem report_calculate (text : String) : (calculate text).report = report (tokenize text) := rfl

/-- The value of a text. -/
def process (text : String) : Except Fault Int := (calculate text).report.result

end IntegerCalc
