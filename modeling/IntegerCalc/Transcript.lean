import IntegerCalc.Script

/-! What a sequence of events leaves on the two outputs. Records go to the error
output, between the lines written there, if the verbosity admits them. -/

namespace IntegerCalc

namespace Event

def out? : Event → Option String
  | .out line => some line
  | _ => none

def err? (verbosity : Nat) : Event → Option String
  | .out _ => none
  | .err line => some line
  | .log record => if record.admitted verbosity then some record.line else none

end Event

structure Transcript where
  succeeded : Bool
  stdout : String
  stderr : String
  deriving DecidableEq

def Transcript.ofEvents (verbosity : Nat) (succeeded : Bool) (events : List Event) : Transcript :=
  ⟨succeeded, Text.unlines (events.filterMap Event.out?),
    Text.unlines (events.filterMap (Event.err? verbosity))⟩

/-- Runs a script and keeps no records. -/
def runScript (script : String) (showTokens : Bool) : Transcript :=
  .ofEvents 0 (Script.succeeded script) (Script.events showTokens script)

end IntegerCalc
