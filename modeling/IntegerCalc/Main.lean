import IntegerCalc.CommandLine.Program

/-! The executable. It reads the one file that the arguments may name and carries
out the events of the program one by one, up to the first write that fails. -/

namespace IntegerCalc.CommandLine

/-- The number of an error, which the system may also give with the opposite sign. -/
def errorNumber (code : UInt32) : UInt32 := if code < 0x80000000 then code else 0 - code

def readFailure (e : IO.Error) : ReadFailure :=
  match e with
  | .noFileOrDirectory _ _ _ => .notFound
  | .inappropriateType _ code _ =>
    if errorNumber code = 20 then .notDirectory
    else if errorNumber code = 21 then .isDirectory else .system (toString e)
  | .invalidArgument _ code _ =>
    if errorNumber code = 36 then .nameTooLong else .system (toString e)
  | e => .system (toString e)

def writeFailure (e : IO.Error) : String :=
  match e with
  | .resourceExhausted _ code _ =>
    if errorNumber code = 28 then Outlet.noSpace else toString e
  | e => toString e

def emit (text : String) : IO (Except IO.Error Unit) := do
  let stdout ← IO.getStdout
  (stdout.putStr text *> stdout.flush).toBaseIO

/-- Whether the program goes on after the event. -/
def carryOut (verbosity : Nat) (event : Event) : IO Bool := do
  if let some line := event.out? then
    if let .error e ← emit (line ++ "\n") then
      if let some line := (Performance.writeFailure (writeFailure e)).err? 0 then
        IO.eprint (line ++ "\n")
      return false
  if let some line := event.err? verbosity then
    IO.eprint (line ++ "\n")
  return true

/-- A text that cannot be written is no failure. -/
def announce (text : String) : IO UInt32 := do
  let _ ← emit text
  return 0

def perform (settings : Settings) : IO UInt32 := do
  let content : Except ReadFailure ByteArray ←
    if settings.fromFile then
      pure ((← (IO.FS.readBinFile settings.contents).toBaseIO).mapError readFailure)
    else pure (.error .notFound)
  let p := Performance.ofSettings settings fun _ => content
  for event in p.events do
    if !(← carryOut settings.verbosity event) then return 1
  return if p.succeeded then 0 else 1

end IntegerCalc.CommandLine

open IntegerCalc CommandLine

def main (arguments : List String) : IO UInt32 :=
  match Request.ofArguments arguments with
  | .usageError error => IO.eprint (Complaint.ofArguments error arguments).text *> pure 2
  | .help => announce helpText
  | .version => announce versionText
  | .calculate settings => perform settings
