import CrashVault.Shell.Command
import CrashVault.Vault

/-! The shell over a vault. It answers the lines of a script one by one until one asks it to quit, and
shows a prompt before each. Its transcript is cut where it turns to the next line. -/

namespace CrashVault.Shell

def prompt : String := "crashstore> "

def helpText : String :=
  "Available commands:\n" ++
  "  help                  Display this help message\n" ++
  "  sessions              List open session ids\n" ++
  "  files <session>       List files of <session>\n" ++
  "  common                List common files\n" ++
  "  reports               List prepared reports\n" ++
  "  paths <session>       Show report paths for <session>\n" ++
  "  rm-session <session>  Delete all files of <session>\n" ++
  "  rm-report <session>   Delete the report of <session>\n" ++
  "  cleanup               Delete files from the legacy layout\n" ++
  "  wipe                  Delete all files and recreate the layout\n" ++
  "  quit                  Exit the shell\n\n"

/-- One item a line, or else what is said of an empty list. -/
def itemLines (none : String) (items : List String) : String :=
  if items = [] then none ++ "\n" else String.join (items.map (· ++ "\n"))

variable {m : Type → Type} [Monad m] [MonadStateOf Host m] [MonadLog m]

def wipeFailed (reason : String) : m String := do
  record .error ("CLI: Error deleting files: " ++ reason)
  return "Error deleting files: " ++ reason ++ "\n"

/-- Carries out a command and says what is printed. A wipe that fails is reported and recorded. -/
def answer (v : Vault) : Command → ExceptT VaultError m String
  | .help => return helpText
  | .sessions => return itemLines "No open sessions" (← (v.openSessions : m _))
  | .common => do
    let files ← (v.listCommon fun name => name ≠ Vault.sessionsName ∧ name ≠ Vault.reportsName : m _)
    return itemLines "No files" (files.map Path.fileName)
  | .reports => return itemLines "No files" ((← (v.listReports : m _)).map Path.fileName)
  | .cleanup => do
    return if ← (v.cleanupLegacy : m _) then "Legacy files cleaned up\n" else "No legacy files found\n"
  | .wipe => do
    match ← (rescue v.deleteAll.run : m _) with
    | .ok (.ok ()) => return "All files deleted\n"
    | .ok (.error e) => (wipeFailed e.message : m _)
    | .error what => (wipeFailed what : m _)
  | .files session => do
    return itemLines "No files" ((← (v.listSession session fun _ => true : m _)).map Path.fileName)
  | .paths session =>
    return "default:  " ++ (v.reportFile .untagged session).text ++ "\n" ++
      "priority: " ++ (v.reportFile .priority session).text ++ "\n" ++
      "native:   " ++ (v.reportFile .native session).text ++ "\n"
  | .removeSession session => do
    return if ← (v.deleteSession session : m _) then "Deleted session " ++ session ++ "\n"
      else "Could not delete session " ++ session ++ "\n"
  | .removeReport session => do
    return if ← (v.deleteReport session : m _) then "Deleted report " ++ session ++ "\n"
      else "No report found for " ++ session ++ "\n"
  | .unknown => return "Unknown command or invalid arguments. Type 'help' for usage.\n"

/-- What a shell printed, cut where it turned to the next line, and the error it broke off with if it
did not come to its end. -/
structure Transcript where
  segments : List String
  failure : Option VaultError
  deriving DecidableEq

def Transcript.cons (segment : String) (t : Transcript) : Transcript :=
  { t with segments := segment :: t.segments }

/-- Answers line after line, each answer closed by a prompt. After a request to quit nothing more is
read or printed. -/
def converse (v : Vault) : List (List Char) → m Transcript
  | [] => return ⟨[], none⟩
  | line :: rest =>
    match Request.ofLine line with
    | .quit => return ⟨[""], none⟩
    | .blank => return (← converse v rest).cons prompt
    | .command name argument => do
      record .debug ("CLI: Processing command: " ++ name ++ " with argument: " ++ argument)
      match ← (answer v (.ofWords name argument)).run with
      | .ok text => return (← converse v rest).cons (text ++ prompt)
      | .error e => return ⟨[""], some e⟩

def run (v : Vault) (script : String) : m Transcript := do
  record .info ("CLI: Initialized over " ++ v.root.text)
  record .info "CLI: Starting command loop"
  let t ← converse v (lines script.toList)
  if t.failure = none then
    record .info "CLI: Command loop ended"
  return t.cons prompt

end CrashVault.Shell
