import CrashVault.Directory

/-! The vault: where every file of a crash reporter lives. Under the root are the common files, one
directory for each open session, and the prepared reports. The directories are prepared when the vault
is opened and again whenever a path into the root or a session is asked for. -/

namespace CrashVault

structure Vault where
  root : Path
  sessions : Path
  reports : Path
  deriving DecidableEq

namespace Vault

/-- The name of the root; it carries the version of the layout. -/
def rootName : String := ".com.google.firebase.crashlytics.files.v1"

/-- The root of the layout before that one. -/
def legacyName : String := ".com.google.firebase.crashlytics"

def sessionsName : String := "open-sessions"

def reportsName : String := "prepared-reports"

variable {m : Type → Type} [Monad m] [MonadStateOf Host m] [MonadLog m]

/-- Prepares the three directories under `base`, the outer ones first. -/
def openAt (base : Path) : ExceptT VaultError m Vault := do
  let root ← Directory.prepare (base / rootName)
  let sessions ← Directory.prepare (root / sessionsName)
  let reports ← Directory.prepare (root / reportsName)
  (record .debug ("FileStore: Initialized at: " ++ root.text) : m Unit)
  return ⟨root, sessions, reports⟩

def legacyDir (v : Vault) : Path := v.root.parent / legacyName

/-- Removes what the older layout left beside the root. -/
def cleanupLegacy (v : Vault) : m Bool := do
  let { removed, .. } ← Directory.removeTree v.legacyDir
  if removed then
    record .debug ("FileStore: Deleted legacy files from " ++ v.legacyDir.text)
  return removed

/-- Removes everything under the root and prepares the three directories again. -/
def deleteAll (v : Vault) : ExceptT VaultError m Unit := do
  (record .info ("FileStore: Deleting all files under: " ++ v.root.text) : m Unit)
  let _ ← (Directory.removeTree v.root : m _)
  let _ ← Directory.prepare v.root
  let _ ← Directory.prepare v.sessions
  let _ ← Directory.prepare v.reports

/-! Common files lie in the root, beside the directories of sessions and reports. -/

def commonFile (v : Vault) (name : String) : ExceptT VaultError m Path :=
  return (← Directory.prepare v.root) / name

def listCommon (v : Vault) (keep : String → Bool) : m (List Path) :=
  Directory.listing v.root keep

/-! An open session is a directory named by its id, which must be a name. -/

def sessionDir (v : Vault) (id : String) : Path := v.sessions / id

def sessionFile (v : Vault) (id name : String) : ExceptT VaultError m Path := do
  if IsName id then
    return (← Directory.prepare (v.sessionDir id)) / name
  else
    (record .error (VaultError.invalidSessionId id).message : m Unit)
    throw (.invalidSessionId id)

def listSession (v : Vault) (id : String) (keep : String → Bool) : m (List Path) := do
  if IsName id then
    Directory.listing (v.sessionDir id) keep
  else
    record .debug ("FileStore: Not listing invalid session id: '" ++ id ++ "'")
    return []

def deleteSession (v : Vault) (id : String) : m Bool := do
  if IsName id then
    record .trace ("FileStore: Deleting files of session: " ++ id)
    return (← Directory.removeTree (v.sessionDir id)).removed
  else
    record .debug ("FileStore: Not deleting invalid session id: '" ++ id ++ "'")
    return false

def openSessions (v : Vault) : m (List String) :=
  return (← Directory.listing v.sessions fun _ => true).map Path.fileName

/-! A prepared report is one file, named by the session's id and the kind of the report. -/

inductive ReportKind
  | untagged
  | priority
  | native
  deriving DecidableEq

def ReportKind.extension : ReportKind → String
  | untagged => ""
  | priority => ".priority"
  | native => ".native"

def reportFile (v : Vault) (kind : ReportKind) (id : String) : Path :=
  v.reports / (id ++ kind.extension)

def listReports (v : Vault) : m (List Path) :=
  Directory.listing v.reports fun _ => true

/-- Deletes the untagged report of a session, if its path leads to anything. -/
def deleteReport (v : Vault) (id : String) : m Bool := do
  let path := v.reportFile .untagged id
  match (← get).files.status path with
  | .error _ =>
    record .debug ("FileStore: Could not find report file to delete: " ++ path.text)
    return false
  | .ok _ =>
    record .trace ("FileStore: Deleting session report: " ++ path.text)
    match (← get).files.remove path with
    | .ok files =>
      modify fun h => { h with files }
      return true
    | .error .missing => return false
    | .error e =>
      record .debug ("FileStore: Failed to delete report " ++ path.text ++ ": " ++ e.message)
      return false

end Vault
end CrashVault
