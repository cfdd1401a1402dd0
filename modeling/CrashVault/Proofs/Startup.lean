import CrashVault.Proofs.CommandLine
import CrashVault.Proofs.Confinement
import CrashVault.Proofs.Conversation
import CrashVault.Proofs.Effects
import CrashVault.Proofs.Layout
import CrashVault.Proofs.Reopening

/-! What starting the program and looking at a vault may change. As long as no line that is read asks for
something to be deleted, all that happens to the files, but for what the log file's sink does to them, is that
the three directories are made and that the older layout goes, wherever the run breaks off. If the sink writes
elsewhere, no more than that has come of it in the end (`run_keeps`). -/

namespace CrashVault

theorem EntryGone.refl (p : Path) (n : String) (fs : FileSystem) : EntryGone p n fs fs := ⟨fun _ => .inl rfl⟩

theorem DirMade.refl (p : Path) (fs : FileSystem) : DirMade p fs fs := ⟨fun _ => .inl rfl⟩

theorem FileSystem.Clears.entryGone {p : Path} {n : String} {d : Loc} {fs fs' : FileSystem}
    (h : FileSystem.Clears (n :: d) fs fs') (hp : fs.find true p = .ok (.node d)) : EntryGone p n fs fs' := by
  constructor
  intro m
  by_cases hm : n :: d <:+ m
  · cases hx : fs'.tree.get? m with
    | none => exact .inr ⟨rfl, d, hp, hm⟩
    | some x => exact .inl (h.tree _ _ hx).symm
  · exact .inl (h.kept m hm)

namespace Shell

theorem files_answer (v : Vault) {c : Command} (hc : ¬ c.Deletes) (h : Host) :
    ((answer v c).run.run h).2.files = h.files := by
  cases c with
  | help => rfl
  | paths session => rfl
  | unknown => rfl
  | sessions => exact v.files_openSessions h
  | common => exact v.files_listCommon _ h
  | reports => exact v.files_listReports h
  | files session => exact v.files_listSession session _ h
  | cleanup => exact absurd trivial hc
  | wipe => exact absurd trivial hc
  | removeSession session => exact absurd trivial hc
  | removeReport session => exact absurd trivial hc

theorem Reply.files {v : Vault} {line : List Char} {text : String} {h h' : Host}
    (hreply : Reply v line h text h') (hline : ¬ Deletes line) : h'.files = h.files := by
  cases hreply with
  | blank => rfl
  | command hcommand hanswer =>
    rename_i name argument
    have hfiles := files_answer v (fun hc => hline (deletes_of_command hcommand hc))
      (h.note (processing name argument))
    rw [hanswer, Host.files_note] at hfiles
    exact hfiles

theorem Replies.files {v : Vault} {script : List (List Char)} {texts : List String} {h h' : Host}
    (hs : Replies v script h texts h') (hlines : ∀ line ∈ script, ¬ Deletes line) : h'.files = h.files := by
  induction hs with
  | nil h => rfl
  | cons hline hrest ih =>
    rw [ih fun l hl => hlines l (List.mem_cons_of_mem _ hl), hline.files (hlines _ List.mem_cons_self)]

theorem files_run (v : Vault) {script : String} (hs : ∀ line ∈ lines script.toList, ¬ Deletes line)
    (h : Host) : ((run v script).run h).2.files = h.files := by
  obtain ⟨texts, h', hreplies, hrun⟩ := exists_run_converse v (lines script.toList) (greeted v h)
  rw [run_of_converse hrun, Host.files_note,
    hreplies.files fun line hl => hs line ((List.takeWhile_prefix _).subset hl), files_greeted]

end Shell

namespace Vault

/-- The directory has been prepared, with whatever success, or its turn has not come. -/
def Tried (p : Path) (h h' : Host) : Prop := h' = h ∨ h' = ((Directory.prepare p).run.run h).2

theorem Tried.dirMade {p : Path} {n : String} {h h' : Host} (ht : Tried (p / n) h h') (hn : IsName n) :
    DirMade (p / n) h.files h'.files := by
  rcases ht with rfl | rfl
  · exact .refl _ _
  · exact Directory.prepare_dirMade hn h

theorem Tried.keepsDirectories {p : Path} {n : String} {h h' : Host} (ht : Tried (p / n) h h')
    (hn : IsName n) : h.files.KeepsDirectories h'.files := by
  rcases ht with rfl | rfl
  · exact .refl _
  · exact Directory.prepare_keepsDirectories hn rfl

theorem openAt_stages (base : Path) (h : Host) : ∃ h₁ h₂ h₃, Tried (under base).root h h₁ ∧
    Tried (under base).sessions h₁ h₂ ∧ Tried (under base).reports h₂ h₃ ∧
    ((openAt base).run.run h).2.files = h₃.files := by
  rw [files_openAt, run_prepareAll]
  rcases hroot : (Directory.prepare (under base).root : Attempt Path).run.run h with ⟨e | p, h₁⟩
  · exact ⟨h₁, h₁, h₁, .inr (by rw [hroot]), .inl rfl, .inl rfl, rfl⟩
  · dsimp only
    rcases hsessions : (Directory.prepare (under base).sessions : Attempt Path).run.run h₁ with ⟨e | p, h₂⟩
    · exact ⟨h₁, h₂, h₂, .inr (by rw [hroot]), .inr (by rw [hsessions]), .inl rfl, rfl⟩
    · dsimp only
      rcases hreports : (Directory.prepare (under base).reports : Attempt Path).run.run h₂ with ⟨e | p, h₃⟩
      · exact ⟨h₁, h₂, h₃, .inr (by rw [hroot]), .inr (by rw [hsessions]), .inr (by rw [hreports]), rfl⟩
      · exact ⟨h₁, h₂, h₃, .inr (by rw [hroot]), .inr (by rw [hsessions]), .inr (by rw [hreports]), rfl⟩

/-- What opening a vault under a base may come to: each of the three directories is made in its turn, or
there already, or not made; all in all nothing has changed but at the three paths, and the base leads where
it has led. -/
structure Starts (base : Path) (fs fs' : FileSystem) : Prop where
  stages : ∃ fs₁ fs₂, DirMade (under base).root fs fs₁ ∧ DirMade (under base).sessions fs₁ fs₂ ∧
    DirMade (under base).reports fs₂ fs'
  made : FileSystem.PathsMade (under base).paths fs fs'
  base : ∀ d, fs.find true base = .ok (.node d) → fs.tree.get? d = some .directory →
    fs'.find true base = .ok (.node d)

theorem Starts.refl (base : Path) (fs : FileSystem) : Starts base fs fs :=
  ⟨⟨fs, fs, .refl _ _, .refl _ _, .refl _ _⟩, fun _ => .inl rfl, fun _ h _ => h⟩

theorem openAt_starts (base : Path) (h : Host) : Starts base h.files ((openAt base).run.run h).2.files := by
  have hmade := prepareAll_pathsMade base h
  obtain ⟨h₁, h₂, h₃, hroot, hsessions, hreports, hfiles⟩ := openAt_stages base h
  rw [← files_openAt, hfiles] at hmade
  rw [hfiles]
  have hkeeps := ((hroot.keepsDirectories (p := base) isEntryName_rootName.1).trans
    (hsessions.keepsDirectories (p := (under base).root) isEntryName_sessionsName.1)).trans
    (hreports.keepsDirectories (p := (under base).root) isEntryName_reportsName.1)
  exact ⟨⟨_, _, hroot.dirMade (p := base) isEntryName_rootName.1,
    hsessions.dirMade (p := (under base).root) isEntryName_sessionsName.1,
    hreports.dirMade (p := (under base).root) isEntryName_reportsName.1⟩, hmade,
    fun _ hfind hd => hkeeps.find hd hfind⟩

theorem cleanupLegacy_entryGone {base : Path} {h h' : Host} {v : Vault} (hp : base.text ≠ "")
    (hopen : (openAt base).run.run h = (.ok v, h')) :
    EntryGone base legacyName h'.files ((v.cleanupLegacy).run h').2.files := by
  obtain rfl := (openAt_ok hopen).1
  obtain ⟨l, hl, -⟩ := FileSystem.find_of_node (p := base) isEntryName_rootName.1
    (openAt_status hopen _ (root_mem _))
  obtain ⟨d, hlead, hd, -⟩ := FileSystem.find_join isEntryName_rootName.1 hl
  have hsize := Path.byteSize_join (p := base) isEntryName_rootName.1 hp
  have hfits := (FileSystem.locate_ok hl).2
  exact (clears_cleanupLegacy hlead).entryGone (FileSystem.find_of_lead hp (by omega) hlead hd)

end Vault

namespace Logging
variable {lib : LogLibrary}

theorem toFile_written (hlib : lib.Documented) {file path : Path} (least : Severity) {h : Host}
    (hpath : h.files.absolute file = .ok path) :
    let g := ((toFile file least : ExceptT LogFileError (Logged lib) Unit).run.run h).2
    g.logging.sinks = [.file path] ∧ (h.files = g.files ∨ lib.Writes [.file path] h.files g.files) := by
  rw [run_logged_toFile, hpath]
  dsimp only
  rw [turnedTo_eq hlib]
  have hlogging := (@logging_record lib (turned path).severity (turned path).text
    { h with logging := ⟨true, some least, [.file path]⟩ }).1
  have hwritten := @written_of_record lib (turned path).severity (turned path).text
    { h with logging := ⟨true, some least, [.file path]⟩ }
  generalize (record _ _ : Logged lib Unit).run _ = closed at hlogging hwritten ⊢
  obtain ⟨what | ⟨⟩, g⟩ := closed
  · exact ⟨congrArg sinks hlogging, hwritten⟩
  · exact ⟨congrArg sinks hlogging, hwritten⟩

end Logging

namespace Program

open Options (baseDir_ne_of_accepted)
open Relation (ReflTransGen)
open Vault (under legacyName Starts)

section
variable {lib : LogLibrary}

/-- The log file comes first; then the vault is opened, and the older layout is cleaned up if that succeeds. -/
theorem run_start (o : Options) (h : Host) : (start o : ExceptT StartError (Logged lib) Vault).run.run h =
    match (Logging.toFile ⟨o.logFile⟩ o.logLevel : ExceptT LogFileError (Logged lib) Unit).run.run h with
    | (.ok (.ok ()), g) =>
      match (Vault.openAt ⟨o.baseDir⟩ : ExceptT VaultError (Logged lib) Vault).run.run g with
      | (.ok (.ok v), g') =>
        match (v.cleanupLegacy : Logged lib Bool).run g' with
        | (.ok _, k) => (.ok (.ok v), k)
        | (.error what, k) => (.error what, k)
      | (.ok (.error e), g') => (.ok (.error (.vault e)), g')
      | (.error what, g') => (.error what, g')
    | (.ok (.error e), g) => (.ok (.error (.logFile e)), g)
    | (.error what, g) => (.error what, g) := by
  rw [start, Logged.run_adapt_bind]
  generalize Logged.run (ExceptT.run (Logging.toFile _ _)) h = logged
  obtain ⟨_ | _ | ⟨⟩, g⟩ := logged
  · rfl
  · rfl
  · dsimp only
    rw [Logged.run_adapt_bind]
    generalize Logged.run (ExceptT.run (Vault.openAt _)) g = opened
    obtain ⟨_ | _ | v, g'⟩ := opened
    · rfl
    · rfl
    · dsimp only
      rw [Logged.run_lift_bind]
      rcases (v.cleanupLegacy : Logged lib Bool).run g' with ⟨_ | _, _⟩
      · rfl
      · rfl

theorem run_eq (argv : List String) (input : String) (h : Host) :
    (run argv input : Logged lib Outcome).run h =
      match (Options.ofCommandLine argv).error with
      | some e => (.ok ⟨1, [""], e.report argv⟩, h)
      | none =>
        match (start (Options.ofCommandLine argv).options : ExceptT StartError (Logged lib) Vault).run.run h with
        | (.error what, h') => (.ok ⟨1, [""], (StartError.thrown what).report⟩, h')
        | (.ok (.error e), h') => (.ok ⟨1, [""], e.report⟩, h')
        | (.ok (.ok v), h') =>
          match (Shell.run v input : Logged lib Shell.Transcript).run h' with
          | (.error what, k) => (.ok ⟨1, [""], (StartError.thrown what).report⟩, k)
          | (.ok t, k) =>
            match t.failure with
            | none => (.ok ⟨0, t.segments, ""⟩, k)
            | some e => (.ok ⟨1, t.segments, (StartError.vault e).report⟩, k) := by
  rw [run]
  generalize Options.ofCommandLine argv = reading
  obtain ⟨options, _ | e⟩ := reading
  · dsimp only
    rw [Logged.run_bind, Logged.run_rescue]
    generalize Logged.run (ExceptT.run (start options)) h = started
    obtain ⟨_ | _ | v, h'⟩ := started
    · rfl
    · rfl
    · dsimp only
      rw [Logged.run_bind, Logged.run_rescue]
      generalize Logged.run (Shell.run v input) h' = ended
      obtain ⟨_ | ⟨segments, _ | e⟩, k⟩ := ended
      · rfl
      · rfl
      · rfl
  · rfl

theorem run_start_of_apart (hlib : lib.Documented) {o : Options} {h : Host}
    (hlog : ∀ path, h.files.absolute ⟨o.logFile⟩ = .ok path → lib.Apart [.file path]) :
    ∃ g : Host, g.files = h.files ∧
      ((∃ e, (start o : ExceptT StartError (Logged lib) Vault).run.run h = (.ok (.error (.logFile e)), g)) ∨
        lib.Apart g.logging.sinks ∧ (start o : ExceptT StartError (Logged lib) Vault).run.run h =
          match (Vault.openAt ⟨o.baseDir⟩).run.run g with
          | (.error e, g') => (.ok (.error (.vault e)), g')
          | (.ok v, g') => (.ok (.ok v), (v.cleanupLegacy.run g').2)) := by
  obtain ⟨made, g, hturn, hfiles, hsinks⟩ := Logging.toFile_of_apart hlib o.logLevel hlog
  refine ⟨g, hfiles, ?_⟩
  rw [run_start, hturn]
  rcases made with e | ⟨⟩
  · exact .inl ⟨e, rfl⟩
  · refine .inr ⟨hsinks rfl, ?_⟩
    have hopen := @Vault.mirrors_openAt lib ⟨o.baseDir⟩
    have hopened := hopen.apart (hsinks rfl)
    dsimp only
    rw [hopen.run_of_apart hlib (hsinks rfl)]
    generalize (Vault.openAt ⟨o.baseDir⟩ : Attempt Vault).run.run g = opened at hopened ⊢
    obtain ⟨e | v, g'⟩ := opened
    · rfl
    · dsimp only
      rw [v.mirrors_cleanupLegacy.run_of_apart hlib hopened]

theorem run_changes (hlib : lib.Documented) {argv : List String} {input : String}
    (hinput : ∀ line ∈ lines input.toList, ¬ Shell.Deletes line) {h : Host} {path : Path}
    (hpath : h.files.absolute ⟨(Options.ofCommandLine argv).options.logFile⟩ = .ok path) :
    ReflTransGen (Change lib ⟨(Options.ofCommandLine argv).options.baseDir⟩ [.file path]) h.files
      ((run argv input : Logged lib Outcome).run h).2.files := by
  rw [run_eq, run_start]
  cases (Options.ofCommandLine argv).error with
  | some e => exact .refl
  | none =>
    have hlogged := Logging.toFile_written hlib (Options.ofCommandLine argv).options.logLevel hpath
    generalize (Options.ofCommandLine argv).options = o at hlogged ⊢
    generalize (Logging.toFile ⟨o.logFile⟩ o.logLevel : ExceptT LogFileError (Logged lib) Unit).run.run h =
      logged at hlogged ⊢
    obtain ⟨made, g⟩ := logged
    obtain ⟨hsinks, hturned⟩ := hlogged
    have hturn : ReflTransGen (Change lib ⟨o.baseDir⟩ [.file path]) h.files g.files := by
      rcases hturned with hsame | hwrites
      · rw [hsame]
      · exact .single (.written hwrites)
    -- the run may break off in each of its parts, and has made the changes of those before
    rcases made with what | e | ⟨⟩
    · exact hturn
    · exact hturn
    · dsimp only
      rcases hopen : (Vault.openAt ⟨o.baseDir⟩ : ExceptT VaultError (Logged lib) Vault).run.run g with ⟨opened, g'⟩
      obtain ⟨hlogging, hopens, hunder⟩ := (@Vault.traced_openAt lib ⟨o.baseDir⟩ g).of_run hopen
      rw [hsinks] at hopens
      rcases opened with what | e | v
      · exact hturn.trans hopens
      · exact hturn.trans hopens
      · obtain rfl : v = under ⟨o.baseDir⟩ := hunder _ rfl v rfl
        dsimp only
        rcases hclean : ((under ⟨o.baseDir⟩).cleanupLegacy : Logged lib Bool).run g' with ⟨cleaned, k⟩
        obtain ⟨hlogging', hcleans, -⟩ := (@Vault.traced_cleanupLegacy lib ⟨o.baseDir⟩ g').of_run hclean
        rw [hlogging, hsinks] at hcleans
        rcases cleaned with what | removed
        · exact (hturn.trans hopens).trans hcleans
        · have hshell := (@Shell.traced_run lib ⟨o.baseDir⟩ (under ⟨o.baseDir⟩) _ hinput k).changes
          rw [hlogging', hlogging, hsinks] at hshell
          dsimp only
          generalize (Shell.run (under ⟨o.baseDir⟩) input : Logged lib Shell.Transcript).run k = ended at hshell ⊢
          have hwhole := ((hturn.trans hopens).trans hcleans).trans hshell
          obtain ⟨what | ⟨segments, _ | e⟩, k'⟩ := ended
          · exact hwhole
          · exact hwhole
          · exact hwhole

theorem run_starts (hlib : lib.Documented) {argv : List String} {input : String}
    (hinput : ∀ line ∈ lines input.toList, ¬ Shell.Deletes line) {h : Host}
    (hlog : ∀ path, h.files.absolute ⟨(Options.ofCommandLine argv).options.logFile⟩ = .ok path →
      lib.Apart [.file path]) :
    let base : Path := ⟨(Options.ofCommandLine argv).options.baseDir⟩
    ∃ opened, Starts base h.files opened ∧
      EntryGone base legacyName opened ((run argv input : Logged lib Outcome).run h).2.files := by
  intro base
  rw [run_eq]
  cases herror : (Options.ofCommandLine argv).error with
  | some e => exact ⟨_, .refl _ _, .refl _ _ _⟩
  | none =>
    have hbase : base.text ≠ "" := baseDir_ne_of_accepted herror
    obtain ⟨g, hfiles, ⟨e, hstart⟩ | ⟨hsinks, hstart⟩⟩ := run_start_of_apart hlib hlog
    · simp only [hstart, hfiles]
      exact ⟨_, .refl _ _, .refl _ _ _⟩
    · have hstarts := Vault.openAt_starts base g
      have hopened := (@Vault.mirrors_openAt lib base).apart hsinks
      rw [hstart]
      rcases hopen : (Vault.openAt base : Attempt Vault).run.run g with ⟨e | v, g'⟩
      · rw [hopen, hfiles] at hstarts
        exact ⟨_, hstarts, .refl _ _ _⟩
      · rw [hopen, hfiles] at hstarts
        rw [hopen] at hopened
        refine ⟨_, hstarts, ?_⟩
        dsimp only
        rw [(Shell.mirrors_run v input).run_of_apart hlib (v.mirrors_cleanupLegacy.apart hopened)]
        dsimp only
        rw [Shell.failure_run]
        dsimp only
        rw [Shell.files_run v hinput]
        exact Vault.cleanupLegacy_entryGone hbase hopen

end

def legacyLink : Host := ⟨FileSystem.empty.add [] legacyName (.link ⟨"elsewhere"⟩), {}, []⟩

/-- With this command line no record of the program is passed on to the log file. -/
def quiet : List String := ["crashstore", "-d", "/", "-v", "fatal"]

/-- A library that adds each record to the log file, if that is a file or can be made. -/
def appending : LogLibrary := .standard fun h r =>
  match h.logging.sinks with
  | [.file path] =>
    let old := match h.files.status path with
      | .ok (.file text) => text
      | _ => ""
    match h.files.write path (old ++ "[" ++ r.severity.name ++ "] " ++ r.text ++ "\n") with
    | .ok files => (.ok (), files)
    | .error e => (.error e.message, h.files)
  | _ => (.ok (), h.files)

end Program
end CrashVault
