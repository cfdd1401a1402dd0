import CrashVault.Path
import CrashVault.SystemError

/-! What a program records about itself: a severity and a text. The state of logging is a switch, a
threshold and the sinks. What becomes of a record is left to the monad the program runs in (`MonadLog`). -/

namespace CrashVault

inductive Severity
  | trace
  | debug
  | info
  | warning
  | error
  | fatal
  deriving DecidableEq

namespace Severity

/-- From the least severe to the most. -/
def all : List Severity := [trace, debug, info, warning, error, fatal]

def rank : Severity → Nat
  | trace => 0
  | debug => 1
  | info => 2
  | warning => 3
  | error => 4
  | fatal => 5

def name : Severity → String
  | trace => "trace"
  | debug => "debug"
  | info => "info"
  | warning => "warning"
  | error => "error"
  | fatal => "fatal"

def ofName? (s : String) : Option Severity := all.find? fun v => v.name = s

theorem ofName?_eq_some_iff {s : String} {v : Severity} : ofName? s = some v ↔ s = v.name := by
  constructor
  · intro h
    simpa [eq_comm] using List.find?_some h
  · rintro rfl
    cases v <;> decide

end Severity

structure Record where
  severity : Severity
  text : String
  deriving DecidableEq

inductive Sink
  | file (path : Path)
  | console
  deriving DecidableEq

structure Logging where
  enabled : Bool := true
  threshold : Option Severity := none
  sinks : List Sink := []
  deriving DecidableEq, Inhabited

/-- Whether the switch and the threshold let a record of that severity through. -/
def Logging.passes (l : Logging) (severity : Severity) : Bool :=
  l.enabled && match l.threshold with
    | none => true
    | some least => least.rank ≤ severity.rank

/-- A monad with logging. A sink may throw, and then the work that makes the record is broken off. -/
class MonadLog (m : Type → Type) where
  clearSinks : m Unit
  addSink : Sink → m Unit
  setThreshold : Severity → m Unit
  setEnabled : Bool → m Unit
  /-- Makes a record. -/
  record : Severity → String → m Unit
  /-- What the work comes to, or what a sink has thrown in it. -/
  rescue {α : Type} : m α → m (Except String α)

export MonadLog (record rescue)

/-- Why there is no logging to a file: the file has no absolute path, or its sink has thrown. -/
inductive LogFileError
  | noPath (file : Path) (cause : SystemError)
  | thrown (what : String)
  deriving DecidableEq

def LogFileError.message : LogFileError → String
  | noPath file cause =>
    "filesystem error: cannot make absolute path: " ++ cause.message ++ " [" ++ file.text ++ "]"
  | thrown what => what

end CrashVault
