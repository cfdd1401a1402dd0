import CrashVault.Text

/-! What a line of a script asks of the shell. Only the first two words of a line count. -/

namespace CrashVault.Shell

inductive Command
  | help
  | sessions
  | common
  | reports
  | cleanup
  | wipe
  | files (session : String)
  | paths (session : String)
  | removeSession (session : String)
  | removeReport (session : String)
  | unknown
  deriving DecidableEq

/-- A command that takes no argument must have none, and one that takes a session must have one. -/
def Command.ofWords (name argument : String) : Command :=
  if argument = "" then
    match name with
    | "help" => .help
    | "sessions" => .sessions
    | "common" => .common
    | "reports" => .reports
    | "cleanup" => .cleanup
    | "wipe" => .wipe
    | _ => .unknown
  else
    match name with
    | "files" => .files argument
    | "paths" => .paths argument
    | "rm-session" => .removeSession argument
    | "rm-report" => .removeReport argument
    | _ => .unknown

inductive Request
  | quit
  | blank
  | command (name argument : String)
  deriving DecidableEq

/-- What a line asks for: to quit, nothing at all, or a command by its first two words. -/
def Request.ofLine (line : List Char) : Request :=
  let (name, rest) := firstWord line
  if name = [] then .blank
  else if name = "quit".toList then .quit
  else .command (String.ofList name) (String.ofList (firstWord rest).1)

end CrashVault.Shell
