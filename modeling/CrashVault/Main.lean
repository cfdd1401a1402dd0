import CrashVault.Program

/-! The command line. The vault lives in memory: the file system starts empty and ends with the run. -/

namespace CrashVault

def Host.fresh : Host := ⟨.empty, {}, []⟩

end CrashVault

def main (args : List String) : IO UInt32 := do
  let input ← (← IO.getStdin).readToEnd
  let (outcome, _) := (CrashVault.Program.run ("crashstore" :: args) input).run .fresh
  IO.print (String.join outcome.out)
  IO.eprint outcome.err
  return outcome.exitCode.toUInt32
