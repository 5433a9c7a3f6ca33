import IntegerCalc.Calculation

/-! A session drives one evaluation by hand. It goes on after a failure with the
state that the failure left, and starts afresh whenever it asks for the value. -/

namespace IntegerCalc.Session

inductive Command where
  /-- One token. -/
  | feed (token : Token)
  /-- The tokens of a text, up to the first that fails. -/
  | text (text : String)
  /-- The end of the expression. -/
  | finish

inductive Reply where
  | accepted
  | value (value : Int)
  | refused (fault : Fault)
  deriving DecidableEq

def afterFeeding : Except Failure Evaluation → Reply × Evaluation
  | .ok e => (.accepted, e)
  | .error failure => (.refused failure.fault, failure.left)

def step (e : Evaluation) : Command → Reply × Evaluation
  | .feed token => afterFeeding (e.feed token)
  | .text text => afterFeeding (e.feedAll (tokenize text))
  | .finish =>
    match e.finish.result with
    | .ok value => (.value value, {})
    | .error fault => (.refused fault, {})

/-- The state after a sequence of commands. -/
def run (e : Evaluation) (commands : List Command) : Evaluation :=
  commands.foldl (fun e command => (step e command).2) e

theorem run_append (e : Evaluation) (a b : List Command) : run e (a ++ b) = run (run e a) b :=
  List.foldl_append

/-- What each command answers, and the state after it. -/
def replies : Evaluation → List Command → List (Reply × Evaluation)
  | _, [] => []
  | e, command :: rest =>
    let outcome := step e command
    outcome :: replies outcome.2 rest

end IntegerCalc.Session
