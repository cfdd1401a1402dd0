import CrashVault.Main
import CrashVault.Directory.Removal
import CrashVault.Proofs.Confinement
import CrashVault.Proofs.Straight
import CrashVault.Proofs.Layout
import CrashVault.Proofs.ReportDeletion
import CrashVault.Vault.Contents
import CrashVault.Proofs.Shows
import CrashVault.Proofs.Follows
import CrashVault.Proofs.Refinement
import CrashVault.Proofs.Reopening
import CrashVault.Proofs.Wipe
import CrashVault.Proofs.ReportNames
import CrashVault.Proofs.SessionFiles
import CrashVault.Proofs.Conversation
import CrashVault.Proofs.Unbroken
import CrashVault.Proofs.Usage
import CrashVault.Proofs.LogFile
import CrashVault.Proofs.Startup
import CrashVault.Proofs.ListedSessions
import CrashVault.Proofs.AnySpelling
import CrashVault.Proofs.RemovalOutcome
import CrashVault.Proofs.CommandLine
import CrashVault.Proofs.ExitCode
import CrashVault.Proofs.Draining
import CrashVault.Proofs.ReportEntries
import CrashVault.Proofs.Access
import CrashVault.Proofs.PrepareOutcome
import CrashVault.Proofs.LegacyCleanup
import CrashVault.Proofs.RemovalCalls
