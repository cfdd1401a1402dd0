import CrashVault.FileSystem.Change
import CrashVault.Logging

/-! What a vault runs on: a file system, the state of logging, and the records reported so far. Where nothing
else is said, work runs on a host alone, which keeps the records itself. It comes to the same with a logging
library whose sinks write elsewhere (`Mirrors.run_of_apart`). -/

namespace CrashVault

structure Host where
  files : FileSystem
  logging : Logging
  records : List Record
  deriving Inhabited

namespace Host

/-- Adds a record if it is at the threshold or above and logging is switched on. -/
def note (h : Host) (r : Record) : Host :=
  if h.logging.passes r.severity then { h with records := h.records ++ [r] } else h

@[simp] theorem files_note (h : Host) (r : Record) : (h.note r).files = h.files := by
  unfold note
  split <;> rfl

end Host

@[default_instance]
instance : MonadLog (StateM Host) where
  clearSinks := modify fun h => { h with logging := { h.logging with sinks := [] } }
  addSink sink := modify fun h => { h with logging := { h.logging with sinks := h.logging.sinks ++ [sink] } }
  setThreshold least := modify fun h => { h with logging := { h.logging with threshold := some least } }
  setEnabled on := modify fun h => { h with logging := { h.logging with enabled := on } }
  record severity text := modify (·.note ⟨severity, text⟩)
  rescue x := return .ok (← x)

namespace Logging

export MonadLog (clearSinks addSink setThreshold setEnabled)

variable {m : Type → Type} [Monad m] [MonadStateOf Host m] [MonadLog m]

/-- Reports to a log file only, from the given severity on. The sinks are taken away before the name
is looked at. -/
def toFile (file : Path) (least : Severity) : ExceptT LogFileError m Unit := do
  (clearSinks : m Unit)
  match (← get).files.absolute file with
  | .error e => throw (.noPath file e)
  | .ok path =>
    (addSink (.file path) : m Unit)
    (setThreshold least : m Unit)
    (setEnabled true : m Unit)
    match ← (rescue (record .debug ("Logging system initialized with file: " ++ path.text)) : m _) with
    | .ok () => return ()
    | .error what => throw (.thrown what)

/-- Reports to the console only, from the given severity on. -/
def toConsole (least : Severity) : m Unit := do
  clearSinks
  addSink .console
  setThreshold least
  setEnabled true

end Logging
end CrashVault
