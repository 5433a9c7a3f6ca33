import IntegerCalc.CommandLine.Arguments
import IntegerCalc.CommandLine.Directory
import IntegerCalc.Transcript

/-! The program as a whole: from the arguments, the files and the state of the
standard output to the exit status and what is written. -/

namespace IntegerCalc.CommandLine

def helpText : String :=
  Text.unlines [
    "Integer arithmetic expression evaluator built on a two-stack precedence algorithm",
    "",
    "Usage: stackcalc [OPTIONS] <CONTENTS>",
    "",
    "Arguments:",
    "  <CONTENTS>  ",
    "",
    "Options:",
    "  -f, --file        Treat the contents as a path to a file with one expression per line",
    "  -t, --tokens      Print the tokens of each expression before its result",
    "  -v, --verbose...  Increase log output. May be given up to three times",
    "  -h, --help        Print help",
    "  -V, --version     Print version"]

def versionText : String := Text.unlines ["stackcalc 0.1.0"]

/-- What is said about arguments that are wrong. Its wording may look at the other marks that
there are, each of them once and where it first comes up. -/
structure Complaint where
  error : UsageError
  marks : List Mark
  deriving DecidableEq

namespace Complaint

def ofArguments (error : UsageError) (arguments : List String) : Complaint :=
  ⟨error, (Mark.ofArguments arguments).eraseDups⟩

/-- The plain wording, which gives no advice on the options. -/
def text (complaint : Complaint) : String :=
  Text.unlines ["error: " ++ complaint.error.message, "",
    "Usage: stackcalc [OPTIONS] <CONTENTS>", "", "For more information, try '--help'."]

end Complaint

/-- What the program does for one request, in order. -/
structure Performance where
  events : List Event
  succeeded : Bool

namespace Performance

def ofScript (showTokens : Bool) (script : String) : Performance :=
  ⟨Script.events showTokens script, Script.succeeded script⟩

/-- A file that cannot be read, or is no text, is reported and nothing is evaluated. -/
def ofFile (showTokens : Bool) (name : String) (content : Except ReadFailure ByteArray) :
    Performance :=
  match content.bind fun bytes => (String.fromUTF8? bytes).elim (.error .notText) .ok with
  | .ok script => ⟨.log (.opened name) :: Script.events showTokens script, Script.succeeded script⟩
  | .error failure =>
    ⟨[.err ("Failed to read the input file '" ++ name ++ "': " ++ failure.message)], false⟩

def ofSettings (settings : Settings) (read : String → Except ReadFailure ByteArray) :
    Performance :=
  if settings.fromFile then
    ofFile settings.showTokens settings.contents (read settings.contents)
  else ofScript settings.showTokens settings.contents

def writeFailure (why : String) : Event := .err ("Failed to write output: " ++ why)

/-- The performance when nothing can be written to the standard output: it ends
at the first line meant for it, and what is wrong is reported instead. -/
def cutShort (why : String) (p : Performance) : Performance :=
  if p.events.any (·.out?.isSome) then
    ⟨p.events.takeWhile (·.out?.isNone) ++ [writeFailure why], false⟩
  else p

end Performance

/-- The state of the standard output. -/
inductive Outlet where
  | working
  | full
  deriving DecidableEq

namespace Outlet

def noSpace : String := "No space left on device (os error 28)"

def restrict : Outlet → Performance → Performance
  | working, p => p
  | full, p => p.cutShort noSpace

def receive : Outlet → String → String
  | working, text => text
  | full, _ => ""

end Outlet

/-- How a run ends. -/
inductive Ending where
  /-- The arguments were wrong. Nothing but the text of the error depends on what is wrong with
  them, so that is left implicit. -/
  | usageError {complaint : Complaint}
  | exited (status : Nat) (stdout stderr : String)
  deriving DecidableEq

namespace Ending

def ofTranscript (t : Transcript) : Ending :=
  .exited (if t.succeeded then 0 else 1) t.stdout t.stderr

def status : Ending → Nat
  | usageError => 2
  | exited status _ _ => status

def stdout : Ending → String
  | usageError => ""
  | exited _ stdout _ => stdout

/-- What is written to the standard error, with complaints worded as they are by `text`. -/
def stderr (text : Complaint → String) : Ending → String
  | @usageError complaint => text complaint
  | exited _ _ stderr => stderr

end Ending

/-- The ending of a run. A help or version text that cannot be written is no failure. -/
def run (arguments : List String) (read : String → Except ReadFailure ByteArray)
    (outlet : Outlet) : Ending :=
  match Request.ofArguments arguments with
  | .usageError error => @Ending.usageError (.ofArguments error arguments)
  | .help => .exited 0 (outlet.receive helpText) ""
  | .version => .exited 0 (outlet.receive versionText) ""
  | .calculate settings =>
    let p := outlet.restrict (Performance.ofSettings settings read)
    .ofTranscript (.ofEvents settings.verbosity p.succeeded p.events)

end IntegerCalc.CommandLine
