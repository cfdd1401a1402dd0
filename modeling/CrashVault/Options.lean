import CrashVault.Logging

/-! The options of the command line: pairs of a flag and its value, read from the left. The first pair
that cannot be read ends the reading; what was read before it is kept. -/

namespace CrashVault

structure Options where
  baseDir : String := ""
  logFile : String := "crashstore.log"
  logLevel : Severity := .info
  deriving DecidableEq

inductive OptionError
  | unpairedFlag
  | unknownFlag (flag : String)
  | unknownLevel (value : String)
  | missingBaseDir
  deriving DecidableEq

def OptionError.message : OptionError → String
  | unpairedFlag => "Error: Every flag needs a value\n"
  | unknownFlag flag => "Error: Unknown argument: " ++ flag ++ "\n"
  | unknownLevel value => "Error: Invalid log level: " ++ value ++ "\n"
  | missingBaseDir => "Error: Base directory is required\n"

/-- The program's own name where the command line gives none. -/
def programName (argv : List String) : String := argv.head?.getD "crashstore"

def usage (program : String) : String :=
  "Usage: " ++ program ++ " -d <dir> [-l <log file>] [-v <level>]\n" ++
  "Required arguments:\n" ++
  "  -d, --dir     Base storage directory\n" ++
  "Optional arguments:\n" ++
  "  -l, --log     Log file (default: crashstore.log)\n" ++
  "  -v, --level   Minimum log level: trace, debug, info, warning, error, fatal\n" ++
  "Example: " ++ program ++ " -d ./files -v debug\n"

/-- The options read, and why reading ended early if it did. -/
structure OptionReading where
  options : Options
  error : Option OptionError
  deriving DecidableEq

namespace Options

def set (o : Options) (flag value : String) : Except OptionError Options :=
  if flag = "-d" ∨ flag = "--dir" then .ok { o with baseDir := value }
  else if flag = "-l" ∨ flag = "--log" then .ok { o with logFile := value }
  else if flag = "-v" ∨ flag = "--level" then
    match Severity.ofName? value with
    | some level => .ok { o with logLevel := level }
    | none => .error (.unknownLevel value)
  else .error (.unknownFlag flag)

/-- Takes in the pairs from the left; at the end there must be a base directory. -/
def readPairs (o : Options) : List String → OptionReading
  | flag :: value :: rest =>
    match o.set flag value with
    | .ok o' => o'.readPairs rest
    | .error e => ⟨o, some e⟩
  | _ => ⟨o, if o.baseDir = "" then some .missingBaseDir else none⟩

/-- Reads a command line, the program's name included; words without a partner are refused at once. -/
def ofCommandLine (argv : List String) : OptionReading :=
  if argv.length % 2 = 0 then ⟨{}, some .unpairedFlag⟩ else readPairs {} argv.tail

end Options

/-- What is printed when a command line is refused: the reason and the usage. -/
def OptionError.report (e : OptionError) (argv : List String) : String :=
  e.message ++ usage (programName argv)

/-- What is printed on reading a command line: nothing if it is accepted. -/
def OptionReading.printed (r : OptionReading) (argv : List String) : String :=
  match r.error with
  | none => ""
  | some e => e.report argv

end CrashVault
