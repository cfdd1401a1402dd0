import CrashVault.LogLibrary

/-! Turning to a log file. That can fail in two ways. Where the file's name has no absolute form, the sinks
are gone by then, and nothing else of the state of logging has changed; where the file's sink throws at the
first record, the file is the one sink all the same, under the threshold asked for (`toFile_exact`). -/

namespace CrashVault

theorem FileSystem.absolute_error_iff {fs : FileSystem} {p : Path} : (∃ e, fs.absolute p = .error e) ↔
    p.text = "" ∨ p.isAbsolute = false ∧ fs.cwd.lost ≠ 0 := by
  unfold absolute
  by_cases hempty : p.text = ""
  · simp [hempty]
  · rw [if_neg hempty]
    cases habsolute : p.isAbsolute with
    | true => simp [hempty]
    | false =>
      rw [if_neg (by simp)]
      by_cases hlost : fs.cwd.lost = 0
      · simp [hempty, hlost]
      · simp [hlost]

namespace Logging

def turned (path : Path) : Record := ⟨.debug, "Logging system initialized with file: " ++ path.text⟩

section
variable {lib : LogLibrary}

/-- The state of logging that the library makes with a log file. -/
def turnedTo (lib : LogLibrary) (path : Path) (least : Severity) (l : Logging) : Logging :=
  lib.setEnabled true (lib.setThreshold least (lib.addSink (.file path) (lib.clearSinks l)))

theorem run_logged_toFile (file : Path) (least : Severity) (h : Host) :
    (toFile file least : ExceptT LogFileError (Logged lib) Unit).run.run h =
      match h.files.absolute file with
      | .error e => (.ok (.error (.noPath file e)), { h with logging := lib.clearSinks h.logging })
      | .ok path =>
        match (record (turned path).severity (turned path).text : Logged lib Unit).run
          { h with logging := turnedTo lib path least h.logging } with
        | (.ok (), g) => (.ok (.ok ()), g)
        | (.error what, g) => (.ok (.error (.thrown what)), g) := by
  rw [toFile, Logged.run_lift_bind, Logged.run_clearSinks]
  dsimp only
  rw [Logged.run_get_bind]
  cases h.files.absolute file with
  | error e => rfl
  | ok path =>
    simp only [Logged.run_lift_bind, Logged.run_addSink, Logged.run_setThreshold, Logged.run_setEnabled,
      Logged.run_rescue]
    unfold turnedTo turned
    generalize Logged.run (record _ _) _ = closed
    obtain ⟨_ | ⟨⟩, g⟩ := closed
    · rfl
    · rfl

theorem exists_run_toFile (file : Path) (least : Severity) (h : Host) : ∃ made g,
    (toFile file least : ExceptT LogFileError (Logged lib) Unit).run.run h = (.ok made, g) := by
  rw [run_logged_toFile]
  cases h.files.absolute file with
  | error e => exact ⟨_, _, rfl⟩
  | ok path =>
    dsimp only
    rcases (record _ _ : Logged lib Unit).run _ with ⟨what | ⟨⟩, g⟩
    · exact ⟨_, _, rfl⟩
    · exact ⟨_, _, rfl⟩

theorem turnedTo_eq (hlib : lib.Documented) (path : Path) (least : Severity) (l : Logging) :
    turnedTo lib path least l = ⟨true, some least, [.file path]⟩ := by
  rw [turnedTo, hlib.clearSinks, hlib.addSink, hlib.setThreshold, hlib.setEnabled]
  rfl

theorem logging_record (severity : Severity) (text : String) (h : Host) :
    ((record severity text : Logged lib Unit).run h).2.logging = h.logging ∧
    ∀ what, ((record severity text : Logged lib Unit).run h).1 = .error what ↔
      lib.passes h.logging severity = true ∧ (lib.consume h ⟨severity, text⟩).1 = .error what := by
  rw [Logged.run_record]
  rcases lib.consume h ⟨severity, text⟩ with ⟨e | ⟨⟩, files⟩
  · cases lib.passes h.logging severity <;> simp
  · cases lib.passes h.logging severity <;> simp

theorem toFile_of_apart (hlib : lib.Documented) {file : Path} (least : Severity) {h : Host}
    (hsink : ∀ path, h.files.absolute file = .ok path → lib.Apart [.file path]) :
    ∃ made g, (toFile file least : ExceptT LogFileError (Logged lib) Unit).run.run h = (.ok made, g) ∧
      g.files = h.files ∧ (made = .ok () → lib.Apart g.logging.sinks) := by
  rw [run_logged_toFile]
  cases habsolute : h.files.absolute file with
  | error e => exact ⟨_, _, rfl, rfl, nofun⟩
  | ok path =>
    have hapart := hsink path habsolute
    dsimp only
    rw [turnedTo_eq hlib, Logged.run_record, hapart ⟨h.files, ⟨true, some least, [.file path]⟩, h.records⟩ _ rfl]
    cases lib.passes ⟨true, some least, [.file path]⟩ (turned path).severity with
    | true => exact ⟨_, _, rfl, rfl, fun _ => hapart⟩
    | false => exact ⟨_, _, rfl, rfl, fun _ => hapart⟩

/-- Whatever the state of logging: where the name will not do, the threshold and the switch are left and the
sinks are not; otherwise the file is the one sink, under the threshold asked for, also if it throws. -/
theorem toFile_exact (hlib : lib.Documented) (file : Path) (least : Severity) (h : Host) :
    let r := (toFile file least : ExceptT LogFileError (Logged lib) Unit).run.run h
    let filed := fun path => (⟨true, some least, [.file path]⟩ : Logging)
    let unnamed := file.text = "" ∨ file.isAbsolute = false ∧ h.files.cwd.lost ≠ 0
    let untaken := fun path what => least.rank ≤ Severity.debug.rank ∧
      (lib.consume { h with logging := filed path } (turned path)).1 = .error what
    (∃ made, r.1 = .ok made) ∧
    ((∃ e, r.1 = .ok (.error e)) ↔ unnamed ∨
      ∃ path what, h.files.absolute file = .ok path ∧ untaken path what) ∧
    (∀ e, r.1 = .ok (.error e) →
      unnamed ∧ r.2.logging = { h.logging with sinks := [] } ∧ (r.2.logging = h.logging ↔ h.logging.sinks = []) ∨
      ∃ path what, e = .thrown what ∧ h.files.absolute file = .ok path ∧ untaken path what ∧
        r.2.logging = filed path) ∧
    (r.1 = .ok (.ok ()) → ∃ path, h.files.absolute file = .ok path ∧ r.2.logging = filed path) := by
  intro r filed unnamed untaken
  have hr : r = _ := run_logged_toFile file least h
  have hunnamed : unnamed ↔ ∃ e, h.files.absolute file = .error e := FileSystem.absolute_error_iff.symm
  rw [hunnamed]
  cases habsolute : h.files.absolute file with
  | error cause =>
    simp only [habsolute, hlib.clearSinks] at hr
    rw [hr]
    refine ⟨⟨_, rfl⟩, iff_of_true ⟨_, rfl⟩ (.inl ⟨cause, rfl⟩), fun e he => .inl ⟨⟨cause, rfl⟩, rfl, ?_⟩, nofun⟩
    exact ⟨fun hsame => (congrArg sinks hsame).symm, fun hnone => by rw [← hnone]⟩
  | ok path =>
    obtain ⟨hlogging, hthrown⟩ := @logging_record lib (turned path).severity (turned path).text
      { h with logging := filed path }
    have hpasses : lib.passes (filed path) .debug = true ↔ least.rank ≤ Severity.debug.rank := by
      simp [hlib.passes_iff, filed]
    simp only [habsolute, turnedTo_eq hlib] at hr
    rcases hrecord : (record (turned path).severity (turned path).text : Logged lib Unit).run
      { h with logging := filed path } with ⟨what | ⟨⟩, g⟩
    · rw [hrecord] at hr hlogging hthrown
      have huntaken : untaken path what := ((hthrown what).1 rfl).imp_left hpasses.1
      rw [hr]
      refine ⟨⟨_, rfl⟩, iff_of_true ⟨_, rfl⟩ (.inr ⟨path, what, rfl, huntaken⟩), fun e he => .inr ?_, nofun⟩
      cases he
      exact ⟨path, what, rfl, rfl, huntaken, hlogging⟩
    · rw [hrecord] at hr hlogging hthrown
      rw [hr]
      refine ⟨⟨_, rfl⟩, iff_of_false nofun ?_, nofun, fun _ => ⟨path, rfl, hlogging⟩⟩
      rintro (⟨e, he⟩ | ⟨_, what, hpath, huntaken⟩)
      · cases he
      · cases hpath
        cases (hthrown what).2 (huntaken.imp_left hpasses.2)

end

def reporting : Host := ⟨.empty, ⟨true, some .info, [.console]⟩, []⟩

/-- A library whose sinks can open no file. -/
def refusing : LogLibrary := .standard fun h _ => (.error "Failed to open file for writing", h.files)

/-- The root directory is no log file. That comes out with the first record, which only a low threshold lets
through; either way the turn is complete. -/
theorem toFile_exact_root : refusing.Documented ∧
    let turn := fun least => (toFile ⟨"/"⟩ least : ExceptT LogFileError (Logged refusing) Unit).run.run reporting
    (∃ e, (turn .debug).1 = .ok (.error e)) ∧ (turn .debug).2.logging = ⟨true, some .debug, [.file ⟨"/"⟩]⟩ ∧
      (turn .info).1 = .ok (.ok ()) ∧ (turn .info).2.logging = ⟨true, some .info, [.file ⟨"/"⟩]⟩ := by
  have hlib : refusing.Documented := LogLibrary.standard_documented _
  obtain ⟨-, -, hfails, -⟩ := toFile_exact hlib ⟨"/"⟩ .debug reporting
  obtain ⟨-, -, -, hreturns⟩ := toFile_exact hlib ⟨"/"⟩ .info reporting
  refine ⟨hlib, ⟨_, rfl⟩, ?_, rfl, ?_⟩
  · obtain ⟨hunnamed, -⟩ | ⟨path, what, -, hpath, -, hlogging⟩ := hfails _ rfl
    · exact absurd hunnamed (by decide)
    · cases hpath
      exact hlogging
  · obtain ⟨path, hpath, hlogging⟩ := hreturns rfl
    cases hpath
    exact hlogging

/-- With an empty name nothing is reported any more, though the switch is on. -/
theorem toFile_silences :
    let r := (toFile ⟨""⟩ .debug : ExceptT LogFileError (Logged .elsewhere) Unit).run.run reporting
    (∃ e, r.1 = .ok (.error e)) ∧ reporting.logging.sinks = [.console] ∧ r.2.logging.sinks = [] ∧
      r.2.logging.enabled = true := by
  refine ⟨⟨.noPath ⟨""⟩ .invalid, ?_⟩, rfl, ?_, ?_⟩
  all_goals rfl

end Logging
end CrashVault
