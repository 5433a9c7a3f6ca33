/-! The arguments of the command line, read from left to right. Short options may
be joined, and options may stand on either side of the positional argument. The
options for help and version act at once; so does anything that is wrong. -/

namespace IntegerCalc.CommandLine

inductive Flag where
  | file | tokens | verbose | help | version
  deriving DecidableEq

namespace Flag

def ofShort? : Char → Option Flag
  | 'f' => some file
  | 't' => some tokens
  | 'v' => some verbose
  | 'h' => some help
  | 'V' => some version
  | _ => none

def ofLong? : String → Option Flag
  | "file" => some file
  | "tokens" => some tokens
  | "verbose" => some verbose
  | "help" => some help
  | "version" => some version
  | _ => none

/-- The long option. -/
def long : Flag → String
  | file => "--file"
  | tokens => "--tokens"
  | verbose => "--verbose"
  | help => "--help"
  | version => "--version"

/-- The long option as messages show it, with dots if it may be given again. -/
def shown : Flag → String
  | verbose => long verbose ++ "..."
  | flag => long flag

end Flag

/-- What an argument, or one letter of joined short options, asks for. -/
inductive Mark where
  | flag (flag : Flag)
  /-- There is no such option. -/
  | unknown (option : String)
  /-- A long option with a value, which none of them takes. -/
  | valued (flag : Flag) (value : String)
  | positional (value : String)
  deriving DecidableEq

namespace Mark

def ofLetter (c : Char) : Mark :=
  match Flag.ofShort? c with
  | some f => flag f
  | none => unknown (String.ofList ['-', c])

/-- The mark of what stands behind two dashes. An equals sign ends the name of the option. -/
def ofLong (text : List Char) : Mark :=
  let name := String.ofList (text.takeWhile (· ≠ '='))
  match Flag.ofLong? name, text.dropWhile (· ≠ '=') with
  | some f, [] => flag f
  | some f, _ :: value => valued f (String.ofList value)
  | none, _ => unknown ("--" ++ name)

/-- The marks of an argument that stands before any `--`. A dash alone is no option. -/
def ofArgument (argument : String) : List Mark :=
  match argument.toList with
  | '-' :: '-' :: text => [ofLong text]
  | '-' :: c :: cs => (c :: cs).map ofLetter
  | _ => [positional argument]

/-- After the first `--` all arguments are positional. -/
def ofArguments (arguments : List String) : List Mark :=
  (arguments.takeWhile (· ≠ "--")).flatMap ofArgument ++
    (arguments.dropWhile (· ≠ "--")).tail.map positional

end Mark

structure Settings where
  fromFile : Bool
  showTokens : Bool
  verbosity : Nat
  contents : String
  deriving DecidableEq

/-- What is wrong with arguments. -/
inductive UsageError where
  /-- An unknown option, or a second positional argument. -/
  | unexpected (argument : String)
  | unneededValue (flag : Flag) (value : String)
  | repeated (flag : Flag)
  | missingContents
  deriving DecidableEq

def UsageError.message : UsageError → String
  | unexpected argument => "unexpected argument '" ++ argument ++ "' found"
  | unneededValue flag value =>
    "unexpected value '" ++ value ++ "' for '" ++ flag.shown ++ "' found; no more were expected"
  | repeated flag => "the argument '" ++ flag.shown ++ "' cannot be used multiple times"
  | missingContents => "the following required arguments were not provided:\n  <CONTENTS>"

/-- What the arguments ask the program to do. -/
inductive Request where
  | usageError (error : UsageError)
  | help
  | version
  | calculate (settings : Settings)
  deriving DecidableEq

/-- The arguments seen so far. -/
structure Seen where
  file : Bool := false
  tokens : Bool := false
  verbosity : Nat := 0
  contents : Option String := none

/-- The file and token options, and the positional argument, may be given only once. The first
mark that is wrong ends the reading. -/
def Seen.add (seen : Seen) : Mark → Except Request Seen
  | .flag .file =>
    if seen.file then .error (.usageError (.repeated .file)) else .ok { seen with file := true }
  | .flag .tokens =>
    if seen.tokens then .error (.usageError (.repeated .tokens))
    else .ok { seen with tokens := true }
  | .flag .verbose => .ok { seen with verbosity := seen.verbosity + 1 }
  | .flag .help => .error .help
  | .flag .version => .error .version
  | .unknown option => .error (.usageError (.unexpected option))
  | .valued flag value => .error (.usageError (.unneededValue flag value))
  | .positional value =>
    match seen.contents with
    | some _ => .error (.usageError (.unexpected value))
    | none => .ok { seen with contents := some value }

def Request.ofMarks (marks : List Mark) : Request :=
  match marks.foldlM Seen.add {} with
  | .error request => request
  | .ok ⟨_, _, _, none⟩ => .usageError .missingContents
  | .ok ⟨file, tokens, verbosity, some contents⟩ => .calculate ⟨file, tokens, verbosity, contents⟩

def Request.ofArguments (arguments : List String) : Request := .ofMarks (Mark.ofArguments arguments)

end IntegerCalc.CommandLine
