import CrashVault.Proofs.Startup
import CrashVault.Proofs.Unbroken

/-! How the program exits. Nothing is thrown out of it, and it succeeds only if its command line is accepted,
logging has turned to the log file and the vault opens. If the log file's sink takes the records, it does so
then, whatever the shell comes to; and when it fails, it has said so on its error output alone, before any of
its input was read (`run_exitCode`). -/

namespace CrashVault

theorem append_ne_empty {s t : String} (ht : t ≠ "") : s ++ t ≠ "" := fun h => ht (String.append_eq_empty_iff.1 h).2

theorem OptionError.report_ne (e : OptionError) (argv : List String) : e.report argv ≠ "" := by
  unfold report usage
  exact append_ne_empty (append_ne_empty (by decide))

theorem StartError.report_ne (e : StartError) : e.report ≠ "" := by
  cases e with
  | logFile e => exact append_ne_empty (by decide)
  | vault e => exact append_ne_empty (by decide)
  | thrown what => exact append_ne_empty (by decide)

namespace Program

variable {lib : LogLibrary}

/-- Once the log file is in use and its sink takes the records, nothing is thrown on the way to the shell. -/
theorem run_start_of_takes {o : Options} {h : Host} :
    let logged := (Logging.toFile ⟨o.logFile⟩ o.logLevel : ExceptT LogFileError (Logged lib) Unit).run.run h
    let opened := (Vault.openAt ⟨o.baseDir⟩ : ExceptT VaultError (Logged lib) Vault).run.run logged.2
    (logged.1 = .ok (.ok ()) → lib.Takes logged.2.logging.sinks) →
    ∃ made k, (start o : ExceptT StartError (Logged lib) Vault).run.run h = (.ok made, k) ∧
      ((∃ v, made = .ok v) ↔ logged.1 = .ok (.ok ()) ∧ ∃ v, opened.1 = .ok (.ok v)) ∧
      (∀ v, made = .ok v → lib.Takes k.logging.sinks) := by
  intro logged opened hsinks
  have hstart := @run_start lib o h
  obtain ⟨made, g, hlogged⟩ := @Logging.exists_run_toFile lib ⟨o.logFile⟩ o.logLevel h
  simp only [logged, opened, hlogged] at hsinks ⊢
  rw [hlogged] at hstart
  rcases made with e | ⟨⟩
  · exact ⟨_, _, hstart, by simp, nofun⟩
  · obtain ⟨made, g', hopened, hlogging⟩ := (Vault.mirrors_openAt ⟨o.baseDir⟩).ends g (hsinks rfl)
    rw [hopened]
    simp only [hopened] at hstart
    rcases made with e | v
    · exact ⟨_, _, hstart, by simp, nofun⟩
    · have htakes : lib.Takes g'.logging.sinks := hlogging ▸ hsinks rfl
      obtain ⟨removed, k, hcleaned, hlogging'⟩ := v.mirrors_cleanupLegacy.ends g' htakes
      simp only [hcleaned] at hstart
      exact ⟨_, _, hstart, by simp, fun _ _ => hlogging' ▸ htakes⟩

theorem run_unstarted {argv : List String} {h k : Host} {made : Except StartError Vault}
    (hstart : (start (Options.ofCommandLine argv).options : ExceptT StartError (Logged lib) Vault).run.run h =
      (.ok made, k))
    (hunstarted : ¬ ((Options.ofCommandLine argv).error = none ∧ ∃ v, made = .ok v)) :
    ∃ report h', ∀ input, (run argv input : Logged lib Outcome).run h = (.ok ⟨1, [""], report⟩, h') := by
  simp only [run_eq, hstart]
  cases herror : (Options.ofCommandLine argv).error with
  | some e => exact ⟨_, h, fun _ => rfl⟩
  | none =>
    cases made with
    | error e => exact ⟨_, k, fun _ => rfl⟩
    | ok v => exact absurd ⟨herror, v, rfl⟩ hunstarted

theorem run_started {argv : List String} {h k : Host} {v : Vault}
    (herror : (Options.ofCommandLine argv).error = none)
    (hstart : (start (Options.ofCommandLine argv).options : ExceptT StartError (Logged lib) Vault).run.run h =
      (.ok (.ok v), k)) (hsinks : lib.Takes k.logging.sinks) (input : String) :
    ∃ o k', (run argv input : Logged lib Outcome).run h = (.ok o, k') ∧ o.exitCode = 0 := by
  obtain ⟨-, texts, -, k', -, -, -, hrun⟩ := Shell.run_ends v input hsinks
  rw [run_eq, herror, hstart]
  dsimp only
  rw [hrun]
  exact ⟨_, _, rfl, rfl⟩

theorem started_of_success {argv : List String} {input : String} {h : Host} {o : Outcome}
    (hrun : ((run argv input : Logged lib Outcome).run h).1 = .ok o) (hzero : o.exitCode = 0) :
    let options := (Options.ofCommandLine argv).options
    let logged := (Logging.toFile ⟨options.logFile⟩ options.logLevel :
      ExceptT LogFileError (Logged lib) Unit).run.run h
    (Options.ofCommandLine argv).error = none ∧ logged.1 = .ok (.ok ()) ∧ ∃ v,
      ((Vault.openAt ⟨options.baseDir⟩ : ExceptT VaultError (Logged lib) Vault).run.run logged.2).1 = .ok (.ok v) := by
  have hone {report : String} (ho : (Except.ok ⟨1, [""], report⟩ : Except String Outcome) = .ok o) : False := by
    cases ho
    cases hzero
  rw [run_eq, run_start] at hrun
  cases herror : (Options.ofCommandLine argv).error with
  | some e =>
    rw [herror] at hrun
    exact (hone hrun).elim
  | none =>
    rw [herror] at hrun
    dsimp only at hrun ⊢
    generalize (Options.ofCommandLine argv).options = options at hrun ⊢
    generalize (Logging.toFile _ _ : ExceptT LogFileError (Logged lib) Unit).run.run h = logged at hrun ⊢
    obtain ⟨what | e | ⟨⟩, g⟩ := logged
    · exact (hone hrun).elim
    · exact (hone hrun).elim
    · dsimp only at hrun ⊢
      generalize (Vault.openAt _ : ExceptT VaultError (Logged lib) Vault).run.run g = opened at hrun ⊢
      obtain ⟨what | e | v, g'⟩ := opened
      · exact (hone hrun).elim
      · exact (hone hrun).elim
      · exact ⟨rfl, rfl, v, rfl⟩

theorem exists_run (argv : List String) (input : String) (h : Host) : ∃ o,
    ((run argv input : Logged lib Outcome).run h).1 = .ok o ∧
      (o.exitCode = 0 ∨ o.exitCode = 1 ∧ o.err ≠ "") := by
  rw [run_eq]
  cases (Options.ofCommandLine argv).error with
  | some e => exact ⟨_, rfl, .inr ⟨rfl, e.report_ne argv⟩⟩
  | none =>
    dsimp only
    generalize Logged.run (ExceptT.run (start _)) h = started
    obtain ⟨what | e | v, g⟩ := started
    · exact ⟨_, rfl, .inr ⟨rfl, (StartError.thrown what).report_ne⟩⟩
    · exact ⟨_, rfl, .inr ⟨rfl, e.report_ne⟩⟩
    · dsimp only
      generalize (Shell.run v input : Logged lib Shell.Transcript).run g = ended
      obtain ⟨what | ⟨segments, _ | e⟩, k⟩ := ended
      · exact ⟨_, rfl, .inr ⟨rfl, (StartError.thrown what).report_ne⟩⟩
      · exact ⟨_, rfl, .inl rfl⟩
      · exact ⟨_, rfl, .inr ⟨rfl, (StartError.vault e).report_ne⟩⟩

end Program
end CrashVault
