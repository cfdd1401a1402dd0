import CrashVault.Vault
import CrashVault.Proofs.Prepare
import CrashVault.Proofs.Straight
import CrashVault.Proofs.Survivors

/-! The vault that opening returns, and its calls unfolded: each comes down to preparing one directory,
removing one tree, or removing one entry. Opening prepares all three directories (`run_openAt`), and so
does deleting everything, once the root is removed (`run_deleteAll`). -/

namespace CrashVault

theorem FileSystem.Spells.anchored {fs : FileSystem} {p : Path} {n : String} {d : Loc} (h : fs.Spells p d)
    (hd : fs.tree.get? d = some .directory) (hn : IsName n) : fs.Anchored p n d where
  isName := hn
  dir := hd
  lead fs' hc := by
    have hd' : fs'.tree.get? d = some .directory := by
      rw [hc.kept d (not_suffix_self n d), hd]
    exact (h.settle hc.cwd hd').lead hd'

namespace Vault

def under (base : Path) : Vault where
  root := base / rootName
  sessions := base / rootName / sessionsName
  reports := base / rootName / reportsName

def paths (v : Vault) : List Path := [v.root, v.sessions, v.reports]

theorem mem_paths {v : Vault} {p : Path} : p ∈ v.paths ↔ p = v.root ∨ p = v.sessions ∨ p = v.reports := by
  simp [paths]

theorem root_mem (v : Vault) : v.root ∈ v.paths := mem_paths.2 (.inl rfl)

theorem sessions_mem (v : Vault) : v.sessions ∈ v.paths := mem_paths.2 (.inr (.inl rfl))

theorem reports_mem (v : Vault) : v.reports ∈ v.paths := mem_paths.2 (.inr (.inr rfl))

theorem under_nulFree {base : Path} (hbase : NulFree base.text) : ∀ p ∈ (under base).paths, NulFree p.text := by
  have hroot : NulFree (under base).root.text := Path.nulFree_join hbase (by decide)
  intro p hp
  rcases mem_paths.1 hp with rfl | rfl | rfl
  · exact hroot
  · exact Path.nulFree_join hroot (by decide)
  · exact Path.nulFree_join hroot (by decide)

theorem reportFile_nulFree {v : Vault} (hv : ∀ p ∈ v.paths, NulFree p.text) (kind : ReportKind) {id : String}
    (hid : NulFree id) : NulFree (v.reportFile kind id).text := by
  refine Path.nulFree_join (hv _ v.reports_mem) fun hnul => ?_
  rw [String.toList_append, List.mem_append] at hnul
  rcases hnul with hnul | hnul
  · exact hid hnul
  · revert hnul
    cases kind <;> decide

/-- The vault has been opened on some host, whatever has become of its directories since. -/
def Opened (v : Vault) : Prop := ∃ base h h', (openAt base).run.run h = (.ok v, h')

theorem isEntryName_rootName : IsEntryName rootName := by decide

theorem isEntryName_legacyName : IsEntryName legacyName := by decide

theorem isEntryName_sessionsName : IsEntryName sessionsName := by decide

theorem isEntryName_reportsName : IsEntryName reportsName := by decide

theorem rootFits {base : Path} (h : (under base).sessions.byteSize ≤ pathMax) :
    (under base).root.byteSize ≤ pathMax := by
  have := Path.byteSize_join (p := (under base).root) isEntryName_sessionsName.1
    (Path.text_join_ne isEntryName_rootName.1)
  change ((under base).root / sessionsName).byteSize ≤ pathMax at h
  omega

theorem run_prepare_bind {α : Type} (p : Path) (f : Path → Attempt α) (h : Host) :
    (Directory.prepare p >>= f).run.run h = match (Directory.prepare p).run.run h with
      | (.error e, h') => (.error e, h')
      | (.ok _, h') => (f p).run.run h' := by
  rw [Attempt.run_bind]
  rcases hr : (Directory.prepare p : Attempt Path).run.run h with ⟨_ | r, h'⟩
  · rfl
  · rw [(Directory.prepare_ok hr).1]

def prepareAll (v : Vault) : Attempt Unit := do
  let _ ← Directory.prepare v.root
  let _ ← Directory.prepare v.sessions
  let _ ← Directory.prepare v.reports

theorem run_prepareAll (v : Vault) (h : Host) : v.prepareAll.run.run h =
    match (Directory.prepare v.root).run.run h with
    | (.error e, h₁) => (.error e, h₁)
    | (.ok _, h₁) => match (Directory.prepare v.sessions).run.run h₁ with
      | (.error e, h₂) => (.error e, h₂)
      | (.ok _, h₂) => match (Directory.prepare v.reports).run.run h₂ with
        | (.error e, h₃) => (.error e, h₃)
        | (.ok _, h₃) => (.ok (), h₃) := by
  rw [prepareAll, run_prepare_bind]
  simp only [run_prepare_bind]
  rfl

theorem prepareAll_cases {v : Vault} {h h' : Host} (hrun : v.prepareAll.run.run h = (.ok (), h')) :
    ∃ h₁ h₂, (Directory.prepare v.root).run.run h = (.ok v.root, h₁) ∧
      (Directory.prepare v.sessions).run.run h₁ = (.ok v.sessions, h₂) ∧
      (Directory.prepare v.reports).run.run h₂ = (.ok v.reports, h') := by
  rw [run_prepareAll] at hrun
  split at hrun
  · cases hrun
  · rename_i r h₁ hroot
    split at hrun
    · cases hrun
    · rename_i s h₂ hsessions
      split at hrun
      · cases hrun
      · rename_i t h₃ hreports
        cases hrun
        rw [(Directory.prepare_ok hroot).1] at hroot
        rw [(Directory.prepare_ok hsessions).1] at hsessions
        rw [(Directory.prepare_ok hreports).1] at hreports
        exact ⟨h₁, h₂, hroot, hsessions, hreports⟩

theorem prepareAll_of_prepare {v : Vault} {h h₁ h₂ h₃ : Host} {r s t : Path}
    (hroot : (Directory.prepare v.root).run.run h = (.ok r, h₁))
    (hsessions : (Directory.prepare v.sessions).run.run h₁ = (.ok s, h₂))
    (hreports : (Directory.prepare v.reports).run.run h₂ = (.ok t, h₃)) :
    v.prepareAll.run.run h = (.ok (), h₃) := by
  rw [run_prepareAll, hroot]
  dsimp only
  rw [hsessions]
  dsimp only
  rw [hreports]

theorem prepareAll_status {base : Path} {h h' : Host}
    (hrun : (under base).prepareAll.run.run h = (.ok (), h')) :
    ∀ p ∈ (under base).paths, h'.files.status p = .ok .directory ∧ p.byteSize ≤ pathMax := by
  obtain ⟨h₁, h₂, hroot, hsessions, hreports⟩ := prepareAll_cases hrun
  have hlater := Directory.prepare_keepsDirectories (p := (under base).root) isEntryName_sessionsName.1 hsessions
  have hlast := Directory.prepare_keepsDirectories (p := (under base).root) isEntryName_reportsName.1 hreports
  have hfits : ∀ {p : Path} {n : String}, IsName n → h'.files.status (p / n) = .ok .directory →
      h'.files.status (p / n) = .ok .directory ∧ (p / n).byteSize ≤ pathMax := by
    intro p n hn hs
    obtain ⟨l, hl, -⟩ := FileSystem.find_of_node hn hs
    exact ⟨hs, (FileSystem.locate_ok hl).2⟩
  intro p hp
  rcases mem_paths.1 hp with rfl | rfl | rfl
  · exact hfits isEntryName_rootName.1 ((hlater.trans hlast).status isEntryName_rootName.1
      (Directory.prepare_ok hroot).2)
  · exact hfits isEntryName_sessionsName.1 (hlast.status isEntryName_sessionsName.1
      (Directory.prepare_ok hsessions).2)
  · exact hfits isEntryName_reportsName.1 (Directory.prepare_ok hreports).2

theorem prepareAll_of_status {v : Vault} {h : Host}
    (hs : ∀ p ∈ v.paths, h.files.status p = .ok .directory) : v.prepareAll.run.run h = (.ok (), h) := by
  have hprepare : ∀ {p}, p ∈ v.paths → (Directory.prepare p).run.run h = (.ok p, h) := fun hp =>
    Directory.prepare_of_directory (hs _ hp)
  exact prepareAll_of_prepare (hprepare (root_mem v)) (hprepare (sessions_mem v)) (hprepare (reports_mem v))

theorem run_openAt (base : Path) (h : Host) : (openAt base).run.run h =
    match (under base).prepareAll.run.run h with
    | (.error e, h') => (.error e, h')
    | (.ok _, h') => (.ok (under base),
      h'.note ⟨.debug, "FileStore: Initialized at: " ++ (under base).root.text⟩) := by
  simp only [openAt, run_prepare_bind, run_prepareAll, under]
  rcases (Directory.prepare (base / rootName) : Attempt Path).run.run h with ⟨_ | _, h₁⟩
  · rfl
  · dsimp only
    rcases (Directory.prepare (base / rootName / sessionsName) : Attempt Path).run.run h₁ with ⟨_ | _, h₂⟩
    · rfl
    · dsimp only
      rcases (Directory.prepare (base / rootName / reportsName) : Attempt Path).run.run h₂ with ⟨_ | _, h₃⟩ <;> rfl

theorem openAt_of_prepareAll {base : Path} {h h' : Host}
    (hrun : (under base).prepareAll.run.run h = (.ok (), h')) : (openAt base).run.run h =
      (.ok (under base), h'.note ⟨.debug, "FileStore: Initialized at: " ++ (under base).root.text⟩) := by
  rw [run_openAt, hrun]

theorem openAt_ok {base : Path} {h h' : Host} {v : Vault} (hrun : (openAt base).run.run h = (.ok v, h')) :
    v = under base ∧ ∃ g, (under base).prepareAll.run.run h = (.ok (), g) ∧ h'.files = g.files := by
  rw [run_openAt] at hrun
  split at hrun
  · cases hrun
  · rename_i u g hprepared
    obtain ⟨hv, hh⟩ := Prod.mk.inj hrun
    refine ⟨(Except.ok.inj hv).symm, g, hprepared, ?_⟩
    rw [← hh]
    exact Host.files_note ..

theorem openAt_status {base : Path} {h h' : Host} {v : Vault} (hrun : (openAt base).run.run h = (.ok v, h')) :
    ∀ p ∈ (under base).paths, h'.files.status p = .ok .directory := by
  obtain ⟨-, g, hprepared, hfiles⟩ := openAt_ok hrun
  intro p hp
  rw [hfiles]
  exact (prepareAll_status hprepared p hp).1

theorem openAt_of_status {base : Path} {h : Host}
    (hs : ∀ p ∈ (under base).paths, h.files.status p = .ok .directory) :
    ∃ h', (openAt base).run.run h = (.ok (under base), h') ∧ h'.files = h.files :=
  ⟨_, openAt_of_prepareAll (prepareAll_of_status hs), Host.files_note ..⟩

/-- The three directories of a vault, made in the directory at `d` where they are not there yet. -/
def layOut (fs : FileSystem) (d : Loc) : FileSystem :=
  ((fs.add d rootName .directory).add (rootName :: d) sessionsName .directory).add
    (rootName :: d) reportsName .directory

/-- The way to the three directories of the vault under `base` is free, in the directory at `d`. -/
structure Free (base : Path) (d : Loc) (fs : FileSystem) : Prop extends fs.Ready base rootName d where
  sessionsFit : (under base).sessions.byteSize ≤ pathMax
  reportsFit : (under base).reports.byteSize ≤ pathMax
  sessions : ∀ x, fs.tree.get? (sessionsName :: rootName :: d) = some x → x = .directory
  reports : ∀ x, fs.tree.get? (reportsName :: rootName :: d) = some x → x = .directory

theorem Free.ready_sessions {base : Path} {d : Loc} {fs : FileSystem} (h : Free base d fs) :
    (fs.add d rootName .directory).Ready (under base).root sessionsName (rootName :: d) :=
  h.toReady.below isEntryName_sessionsName h.sessionsFit h.sessions

theorem Free.ready_reports {base : Path} {d : Loc} {fs : FileSystem} (h : Free base d fs) :
    ((fs.add d rootName .directory).add (rootName :: d) sessionsName .directory).Ready
      (under base).root reportsName (rootName :: d) :=
  h.ready_sessions.beside (h.toReady.below isEntryName_reportsName h.reportsFit h.reports)

theorem Free.grows {base : Path} {d : Loc} {fs : FileSystem} (h : Free base d fs) :
    fs.Grows (layOut fs d) :=
  (h.toReady.grows.trans h.ready_sessions.grows).trans h.ready_reports.grows

theorem Free.get?_layOut {base : Path} {d : Loc} {fs : FileSystem} (h : Free base d fs) (m : Loc) :
    (layOut fs d).tree.get? m =
      if m = rootName :: d ∨ m = sessionsName :: rootName :: d ∨ m = reportsName :: rootName :: d then
        some .directory
      else fs.tree.get? m := by
  rw [layOut, h.ready_reports.get?_add, h.ready_sessions.get?_add, h.toReady.get?_add]
  split
  · simp [*]
  · split
    · simp [*]
    · simp [*]

theorem Free.get?_below {base : Path} {d : Loc} {fs : FileSystem} (h : Free base d fs) (r : Loc) :
    (layOut fs d).tree.get? (r ++ rootName :: d) =
      if r = [] ∨ r = [sessionsName] ∨ r = [reportsName] then some .directory
      else fs.tree.get? (r ++ rootName :: d) := by
  have hplaces : (r ++ rootName :: d = rootName :: d ∨ r ++ rootName :: d = sessionsName :: rootName :: d ∨
      r ++ rootName :: d = reportsName :: rootName :: d) ↔
      r = [] ∨ r = [sessionsName] ∨ r = [reportsName] :=
    or_congr (List.append_left_inj _ : r ++ rootName :: d = [] ++ rootName :: d ↔ _)
      (or_congr (List.append_left_inj _ : r ++ rootName :: d = [sessionsName] ++ rootName :: d ↔ _)
        (List.append_left_inj _ : r ++ rootName :: d = [reportsName] ++ rootName :: d ↔ _))
  rw [h.get?_layOut]
  simp only [hplaces]

theorem Free.get?_outside {base : Path} {d m : Loc} {fs : FileSystem} (h : Free base d fs)
    (hm : ¬ rootName :: d <:+ m) : (layOut fs d).tree.get? m = fs.tree.get? m := by
  rw [h.get?_layOut, if_neg]
  rintro (rfl | rfl | rfl)
  · exact hm (List.suffix_refl _)
  · exact hm (List.suffix_cons _ _)
  · exact hm (List.suffix_cons _ _)

theorem prepareAll_free {base : Path} {d : Loc} {h : Host} (hf : Free base d h.files) :
    ∃ h', (under base).prepareAll.run.run h = (.ok (), h') ∧ h'.files = layOut h.files d := by
  have hs := hf.ready_sessions
  have hr := hf.ready_reports
  obtain ⟨hok, hfiles⟩ := Directory.prepare_ready hf.toReady
  rw [← hfiles] at hs
  obtain ⟨hok₁, hfiles₁⟩ := Directory.prepare_ready hs
  rw [← hfiles, ← hfiles₁] at hr
  obtain ⟨hok₂, hfiles₂⟩ := Directory.prepare_ready hr
  rw [hfiles₁, hfiles] at hfiles₂
  exact ⟨_, prepareAll_of_prepare (Prod.ext hok rfl) (Prod.ext hok₁ rfl) (Prod.ext hok₂ rfl), hfiles₂⟩

theorem openAt_free {base : Path} {d : Loc} {h : Host} (hf : Free base d h.files) :
    ∃ h', (openAt base).run.run h = (.ok (under base), h') ∧ h'.files = layOut h.files d := by
  obtain ⟨g, hrun, hfiles⟩ := prepareAll_free hf
  exact ⟨_, openAt_of_prepareAll hrun, (Host.files_note ..).trans hfiles⟩

theorem free_empty : Free ⟨"/"⟩ [] .empty := by
  have hnone : ∀ n d x, FileSystem.empty.tree.get? (n :: d) = some x → x = .directory := by
    intro n d x hx
    rw [show FileSystem.empty.tree = .empty from rfl, FileTree.get?_empty (by simp)] at hx
    cases hx
  exact ⟨⟨by decide, (FileSystem.spells_root _).lead (FileTree.get?_root _), FileTree.get?_root _,
    isEntryName_rootName, hnone _ _⟩, by decide, by decide, hnone _ _, hnone _ _⟩

theorem opened_empty : (under ⟨"/"⟩).Opened := by
  obtain ⟨h', hrun, -⟩ := openAt_free (h := ⟨.empty, {}, []⟩) free_empty
  exact ⟨_, _, h', hrun⟩

theorem Opened.eq_under {v : Vault} (hv : v.Opened) : ∃ base, v = under base := by
  obtain ⟨base, h, h', hrun⟩ := hv
  exact ⟨base, (openAt_ok hrun).1⟩

theorem Opened.sessions_ne {v : Vault} (hv : v.Opened) : v.sessions.text ≠ "" := by
  obtain ⟨base, rfl⟩ := hv.eq_under
  exact Path.text_join_ne isEntryName_sessionsName.1

theorem run_prepare_join (p : Path) (name : String) (h : Host) :
    (do return (← Directory.prepare p) / name : Attempt Path).run.run h =
      match (Directory.prepare p).run.run h with
      | (.ok r, h') => (.ok (r / name), h')
      | (.error e, h') => (.error e, h') := by
  rw [Attempt.run_bind]
  rcases (Directory.prepare p : Attempt Path).run.run h with ⟨_ | _, _⟩ <;> rfl

theorem run_commonFile (v : Vault) (name : String) (h : Host) : (v.commonFile name).run.run h =
    match (Directory.prepare v.root).run.run h with
    | (.ok r, h') => (.ok (r / name), h')
    | (.error e, h') => (.error e, h') := run_prepare_join v.root name h

theorem files_commonFile (v : Vault) (name : String) (h : Host) :
    ((v.commonFile name).run.run h).2.files = ((Directory.prepare v.root).run.run h).2.files := by
  rw [run_commonFile]
  split <;> simp [*]

theorem sessionFile_of_name {v : Vault} {id : String} (hid : IsName id) (name : String) :
    v.sessionFile id name = (do return (← Directory.prepare (v.sessionDir id)) / name) := by
  rw [sessionFile, if_pos hid]

theorem run_sessionFile_of_not_name {v : Vault} {id : String} (hid : ¬ IsName id) (name : String)
    (h : Host) : (v.sessionFile id name).run.run h =
      (.error (.invalidSessionId id), h.note ⟨.error, (VaultError.invalidSessionId id).message⟩) := by
  rw [sessionFile, if_neg hid]
  rfl

theorem listSession_of_name {v : Vault} {id : String} (hid : IsName id) (keep : String → Bool) :
    v.listSession id keep = Directory.listing (v.sessionDir id) keep := by
  rw [listSession, if_pos hid]

theorem run_listSession_of_not_name {v : Vault} {id : String} (hid : ¬ IsName id)
    (keep : String → Bool) (h : Host) : (v.listSession id keep).run h =
      ([], h.note ⟨.debug, "FileStore: Not listing invalid session id: '" ++ id ++ "'"⟩) := by
  rw [listSession, if_neg hid]
  rfl

theorem files_sessionFile {v : Vault} {id : String} (hid : IsName id) (name : String) (h : Host) :
    ((v.sessionFile id name).run.run h).2.files =
      ((Directory.prepare (v.sessionDir id)).run.run h).2.files := by
  rw [sessionFile_of_name hid, run_prepare_join]
  split <;> simp [*]

theorem run_deleteSession_of_name {v : Vault} {id : String} (hid : IsName id) (h : Host) :
    (v.deleteSession id).run h =
      let r := (Directory.removeTree (v.sessionDir id)).run
        (h.note ⟨.trace, "FileStore: Deleting files of session: " ++ id⟩)
      (r.1.removed, r.2) := by
  rw [deleteSession, if_pos hid]
  rfl

/-- Where the way to the sessions does not go through the session, and nothing in it is out of reach, its
deletion takes it whole, if it is there, and nothing else. -/
theorem deleteSession_whole {v : Vault} {id : String} {d : Loc} {h : Host}
    (ha : h.files.Anchored v.sessions id d) (hreach : ∀ r, ¬ h.files.OutOfReach (v.sessionDir id) (id :: d) r) :
    (((v.deleteSession id).run h).1 = true ↔ ∃ x, h.files.tree.get? (id :: d) = some x) ∧
      FileSystem.Clears (id :: d) h.files ((v.deleteSession id).run h).2.files ∧
      ∀ m, ((v.deleteSession id).run h).2.files.tree.get? m =
        if id :: d <:+ m then none else h.files.tree.get? m := by
  rw [run_deleteSession_of_name ha.isName]
  rw [← Host.files_note h ⟨.trace, "FileStore: Deleting files of session: " ++ id⟩] at ha hreach ⊢
  obtain ⟨hremoved, hget⟩ := Directory.removeTree_whole ha hreach
  exact ⟨hremoved, Directory.clears_of_anchored ha, hget⟩

theorem run_deleteSession_of_not_name {v : Vault} {id : String} (hid : ¬ IsName id) (h : Host) :
    (v.deleteSession id).run h =
      (false, h.note ⟨.debug, "FileStore: Not deleting invalid session id: '" ++ id ++ "'"⟩) := by
  rw [deleteSession, if_neg hid]
  rfl

theorem files_listing (p : Path) (keep : String → Bool) (h : Host) :
    ((Directory.listing p keep).run h).2.files = h.files := by
  rw [Directory.run_listing]
  split
  · rfl
  · exact Host.files_note ..

theorem files_listCommon (v : Vault) (keep : String → Bool) (h : Host) :
    ((v.listCommon keep).run h).2.files = h.files := files_listing v.root keep h

theorem files_openSessions (v : Vault) (h : Host) : (v.openSessions.run h).2.files = h.files :=
  files_listing v.sessions (fun _ => true) h

theorem files_listReports (v : Vault) (h : Host) : (v.listReports.run h).2.files = h.files :=
  files_listing v.reports (fun _ => true) h

theorem files_listSession (v : Vault) (id : String) (keep : String → Bool) (h : Host) :
    ((v.listSession id keep).run h).2.files = h.files := by
  by_cases hid : IsName id
  · rw [listSession_of_name hid, files_listing]
  · rw [run_listSession_of_not_name hid, Host.files_note]

theorem isName_append_extension {id : String} (h : IsName id) (kind : ReportKind) :
    IsName (id ++ kind.extension) := by
  apply isName_append h
  · cases kind <;> decide
  · cases kind <;> decide

theorem reportFile_untagged (v : Vault) (id : String) : v.reportFile .untagged id = v.reports / id := by
  rw [reportFile, ReportKind.extension, String.append_empty]

theorem deleteReport_cases (v : Vault) (id : String) (h : Host) :
    (∃ fs x, h.files.status (v.reportFile .untagged id) = .ok x ∧
      h.files.remove (v.reportFile .untagged id) = .ok fs ∧
      ((v.deleteReport id).run h).1 = true ∧ ((v.deleteReport id).run h).2.files = fs) ∨
    ((∃ e, h.files.status (v.reportFile .untagged id) = .error e) ∨
      ∃ e, h.files.remove (v.reportFile .untagged id) = .error e) ∧
      ((v.deleteReport id).run h).1 = false ∧ ((v.deleteReport id).run h).2.files = h.files := by
  simp only [deleteReport, StateT.run_bind, StateT.run_get, pure_bind]
  cases hs : h.files.status (v.reportFile .untagged id) with
  | error e => exact .inr ⟨.inl ⟨e, rfl⟩, rfl, Host.files_note ..⟩
  | ok x =>
    simp only [StateT.run_bind, StateT.run_get, record, StateT.run_modify, pure_bind, Host.files_note]
    cases hr : h.files.remove (v.reportFile .untagged id) with
    | ok fs => exact .inl ⟨fs, x, rfl, rfl, rfl, rfl⟩
    | error e =>
      refine .inr ⟨.inr ⟨e, rfl⟩, ?_⟩
      cases e with
      | missing => exact ⟨rfl, Host.files_note ..⟩
      | _ => exact ⟨rfl, (Host.files_note ..).trans (Host.files_note ..)⟩

theorem deleteReport_vacant {v : Vault} {id : String} {h : Host} {d : Loc} (hv : h.files.Vacant v.reports id d) :
    ((v.deleteReport id).run h).1 = false ∧ ((v.deleteReport id).run h).2.files = h.files := by
  have hstatus := hv.status
  rw [← reportFile_untagged] at hstatus
  rcases deleteReport_cases v id h with ⟨fs, x, hx, -⟩ | ⟨-, hrest⟩
  · rw [hstatus] at hx
    cases hx
  · exact hrest

theorem deleteReport_of_remove {v : Vault} {id : String} {h : Host} {x : Node} {fs : FileSystem}
    (hs : h.files.status (v.reportFile .untagged id) = .ok x)
    (hr : h.files.remove (v.reportFile .untagged id) = .ok fs) :
    ((v.deleteReport id).run h).1 = true ∧ ((v.deleteReport id).run h).2.files = fs := by
  rcases deleteReport_cases v id h with ⟨fs', -, -, hr', hanswer, hfiles⟩ | ⟨⟨e, he⟩ | ⟨e, he⟩, -⟩
  · rw [hr] at hr'
    cases hr'
    exact ⟨hanswer, hfiles⟩
  · rw [hs] at he
    cases he
  · rw [hr] at he
    cases he

theorem deleteReport_removes {v : Vault} {id : String} {h : Host} {p : Path} {n : String} {d : Loc}
    {x : Node} (hpath : v.reportFile .untagged id = p / n) (hfits : (p / n).byteSize ≤ pathMax)
    (hlead : h.files.lead p = .ok (.node d)) (hx : h.files.tree.get? (n :: d) = some x)
    (hlink : ∀ target, x ≠ .link target) (hc : h.files.tree.children (n :: d) = []) :
    ((v.deleteReport id).run h).1 = true ∧
      ((v.deleteReport id).run h).2.files = h.files.prune (n :: d) := by
  have hremove : h.files.remove (p / n) = .ok (h.files.prune (n :: d)) := by
    rw [FileSystem.remove_join (FileTree.isEntryName_of_get? hx).1, FileSystem.entry_of_get? hfits hlead hx]
    simp only [hx, hc, if_true]
    cases x <;> rfl
  have hstatus : h.files.status (p / n) = .ok x :=
    FileSystem.node_of_find (FileSystem.find_of_get? hfits hlead hx hlink true) hx
  rw [← hpath] at hremove hstatus
  exact deleteReport_of_remove hstatus hremove

theorem files_cleanupLegacy (v : Vault) (h : Host) : ((v.cleanupLegacy).run h).2.files =
    ((Directory.removeTree v.legacyDir).run h).2.files := by
  simp only [cleanupLegacy, StateT.run_bind]
  generalize (Directory.removeTree v.legacyDir).run h = r
  obtain ⟨⟨removed, tried⟩, h'⟩ := r
  cases removed with
  | false => rfl
  | true => exact Host.files_note ..

theorem run_cleanupLegacy (v : Vault) (h : Host) : ((v.cleanupLegacy).run h).1 =
    ((Directory.removeTree v.legacyDir).run h).1.removed := by
  simp only [cleanupLegacy, StateT.run_bind]
  generalize (Directory.removeTree v.legacyDir).run h = r
  obtain ⟨⟨removed, tried⟩, h'⟩ := r
  cases removed <;> rfl

/-- The host once the root has been removed, as far as that goes. -/
def emptied (v : Vault) (h : Host) : Host :=
  ((Directory.removeTree v.root).run
    (h.note ⟨.info, "FileStore: Deleting all files under: " ++ v.root.text⟩)).2

theorem run_deleteAll (v : Vault) (h : Host) :
    v.deleteAll.run.run h = v.prepareAll.run.run (v.emptied h) := by
  rw [deleteAll, Attempt.run_lift_bind, Attempt.run_lift_bind]
  rfl

/-- Under a base that is reached whatever is removed from the root, deleting everything returns; of the
root is left what is out of reach, with the layout made anew. -/
theorem deleteAll_anchored {base : Path} {d : Loc} {h : Host} (ha : h.files.Anchored base rootName d)
    (hs : (under base).sessions.byteSize ≤ pathMax) (hr : (under base).reports.byteSize ≤ pathMax) :
    FileSystem.Clears (rootName :: d) h.files ((under base).emptied h).files ∧
      FileSystem.Reaps (under base).root (rootName :: d) h.files ((under base).emptied h).files ∧
      Free base d ((under base).emptied h).files ∧
      ∃ h', (under base).deleteAll.run.run h = (.ok (), h') ∧
        h'.files = layOut ((under base).emptied h).files d := by
  have ha' : (h.note ⟨.info, "FileStore: Deleting all files under: " ++
      (under base).root.text⟩).files.Anchored base rootName d := by
    rw [Host.files_note]
    exact ha
  have hclears := Directory.clears_of_anchored ha'
  have hreaps := (Directory.removeTree_reaps (under base).root rfl ha').reaps
  change FileSystem.Clears _ _ ((under base).emptied h).files at hclears
  change FileSystem.Reaps _ _ _ ((under base).emptied h).files at hreaps
  rw [Host.files_note] at hclears hreaps
  have hroot := rootFits hs
  have hfree : Free base d ((under base).emptied h).files :=
    ⟨⟨hroot, ha.lead _ hclears, (ha.clears hclears).dir, isEntryName_rootName,
      fun _ => hreaps.directory (r := []) hroot⟩, hs, hr,
      fun _ => hreaps.directory (r := [sessionsName]) hs, fun _ => hreaps.directory (r := [reportsName]) hr⟩
  obtain ⟨h', hrun, hfiles⟩ := prepareAll_free hfree
  exact ⟨hclears, hreaps, hfree, h', (run_deleteAll _ _).trans hrun, hfiles⟩

end Vault
end CrashVault
