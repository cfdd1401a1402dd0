/-! Why the system refuses a call, and its text for each reason. -/

namespace CrashVault

inductive SystemError
  | missing
  | notDirectory
  | isDirectory
  | alreadyExists
  | notEmpty
  | invalid
  | busy
  | nameTooLong
  | tooManyLinks
  deriving DecidableEq

namespace SystemError

def message : SystemError → String
  | missing => "No such file or directory"
  | notDirectory => "Not a directory"
  | isDirectory => "Is a directory"
  | alreadyExists => "File exists"
  | notEmpty => "Directory not empty"
  | invalid => "Invalid argument"
  | busy => "Device or resource busy"
  | nameTooLong => "File name too long"
  | tooManyLinks => "Too many levels of symbolic links"

/-- The two reasons that say a path names nothing; the others leave that open. -/
def saysAbsent : SystemError → Bool
  | missing | notDirectory => true
  | _ => false

end SystemError
end CrashVault
