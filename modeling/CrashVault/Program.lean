import CrashVault.Options
import CrashVault.Shell

/-! The program: it reads its command line, opens the log file and the vault, removes what an older
layout left behind, and runs the shell over its input. -/

namespace CrashVault

/-- Why the program did not get to its shell, or not to the end of it. -/
inductive StartError
  | logFile (e : LogFileError)
  | vault (e : VaultError)
  /-- A sink has thrown, once logging was turned to the log file. -/
  | thrown (what : String)
  deriving DecidableEq

/-- What is said on the error output; a log file that cannot be opened is named first. -/
def StartError.report : StartError → String
  | logFile e => "Failed to initialize logging: " ++ e.message ++ "\n" ++
    "Error: Failed to open file store: " ++ e.message ++ "\n"
  | vault e => "Error: Failed to open file store: " ++ e.message ++ "\n"
  | thrown what => "Error: Failed to open file store: " ++ what ++ "\n"

/-- What a run of the program leaves: its exit code, its output in the segments of the shell, and its
error output. -/
structure Outcome where
  exitCode : Nat
  out : List String
  err : String
  deriving DecidableEq

namespace Program
variable {m : Type → Type} [Monad m] [MonadStateOf Host m] [MonadLog m]

/-- Opens the log file and the vault, and removes what an older layout left behind. -/
def start (o : Options) : ExceptT StartError m Vault := do
  ExceptT.adapt StartError.logFile (Logging.toFile ⟨o.logFile⟩ o.logLevel)
  let v ← ExceptT.adapt StartError.vault (Vault.openAt ⟨o.baseDir⟩)
  let _ ← (v.cleanupLegacy : m _)
  return v

/-- Runs the program on a command line and the whole of its input. Where a sink throws in the shell, what
had been printed by then is left out. -/
def run (argv : List String) (input : String) : m Outcome := do
  let { options, error } := Options.ofCommandLine argv
  match error with
  | some e => return ⟨1, [""], e.report argv⟩
  | none =>
    match ← rescue (start options).run with
    | .error what => return ⟨1, [""], (StartError.thrown what).report⟩
    | .ok (.error e) => return ⟨1, [""], e.report⟩
    | .ok (.ok v) =>
      match ← rescue (Shell.run v input) with
      | .error what => return ⟨1, [""], (StartError.thrown what).report⟩
      | .ok t =>
        match t.failure with
        | none => return ⟨0, t.segments, ""⟩
        | some e => return ⟨1, t.segments, (StartError.vault e).report⟩

end Program
end CrashVault
