import IntegerCalc.Calculation
import IntegerCalc.Text.Terminal

/-! Records of what a program does, for those who watch it. Each kind of record
has one level and one target; a verbosity admits the levels up to its own. -/

namespace IntegerCalc

inductive Level where
  | info | debug | trace
  deriving DecidableEq

namespace Level

def label : Level → String
  | info => "INFO"
  | debug => "DEBUG"
  | trace => "TRACE"

/-- The least verbosity at which records of this level are kept. -/
def verbosity : Level → Nat
  | info => 1
  | debug => 2
  | trace => 3

end Level

inductive Record where
  /-- A file was read. -/
  | opened (name : String)
  /-- A character was passed over by a reader. -/
  | discarded (span : Span)
  /-- An operator was applied. -/
  | reduced (step : Reduction)
  /-- An evaluation came to its end with all `count` tokens accepted. -/
  | evaluated (count : Nat) (result : Except Fault Int)

namespace Record

def level : Record → Level
  | opened _ => .info
  | discarded _ => .trace
  | reduced _ => .trace
  | evaluated _ _ => .debug

def target : Record → String
  | opened _ => "stackcalc"
  | discarded _ => "stackcalc::interpreter::lexer"
  | reduced _ => "stackcalc::interpreter::evaluator::arithmetic"
  | evaluated _ _ => "stackcalc::interpreter::evaluator::core"

def resultText : Except Fault Int → String
  | .ok value => "Ok(" ++ toString value ++ ")"
  | .error fault => "Err(" ++ fault.name ++ ")"

def message : Record → String
  | opened name => "read expressions from '" ++ name ++ "'"
  | discarded span =>
    "discarding unrecognized input at " ++ toString span.start ++ ".." ++ toString span.stop
  | reduced step =>
    "reduced " ++ toString step.lhs ++ " " ++ step.op.symbol.toString ++ " " ++
      toString step.rhs ++ " = " ++ toString step.value
  | evaluated count result =>
    "evaluated " ++ toString count ++ " tokens: " ++ resultText result

def admitted (verbosity : Nat) (r : Record) : Bool := r.level.verbosity ≤ verbosity

/-- Level and message. -/
def brief (r : Record) : String := r.level.label ++ " " ++ r.message

/-- Level, target and message as a terminal is to show them, with the level flush
right in five columns. -/
def line (r : Record) : String :=
  String.ofList (r.level.label.toList.leftpad 5 ' ') ++ " " ++ r.target ++ ": " ++
    Text.shown r.message

end Record

def Reading.records (r : Reading) : List Record := r.discarded.map .discarded

/-- The reductions, and then the end if all `count` tokens were accepted. -/
def Report.records (count : Nat) (r : Report) : List Record :=
  r.reductions.map .reduced ++ if r.complete then [.evaluated count r.result] else []

def Calculation.records (c : Calculation) : List Record :=
  c.reading.records ++ c.report.records c.reading.tokens.length

theorem records_calculate (text : String) :
    (calculate text).records =
      (read text).records ++ (report (tokenize text)).records (tokenize text).length := rfl

end IntegerCalc
