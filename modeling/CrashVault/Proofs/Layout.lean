import CrashVault.Proofs.Opened
import CrashVault.Proofs.Straight
import CrashVault.Vault.Call

/-! The layout of a vault through runs of calls. Once the root and the directories of sessions and reports
are real ones under a base that is reached without `..` and links, they are there after every call of a
run, whatever else the tree holds and whether calls fail or not (`runCalls_standing`). The invariant is
that the three stand at the places the base spells out (`Layout`), and each call keeps it. -/

namespace CrashVault
namespace Vault

/-- The three directories are real ones, no links. -/
structure Standing (v : Vault) (fs : FileSystem) : Prop where
  root : fs.linkStatus v.root = .ok .directory
  sessions : fs.linkStatus v.sessions = .ok .directory
  reports : fs.linkStatus v.reports = .ok .directory

theorem place_of_linkStatus {fs : FileSystem} {p : Path} {n : String} (hn : IsName n)
    (h : fs.linkStatus (p / n) = .ok .directory) :
    ∃ d, fs.lead p = .ok (.node d) ∧ fs.find true (p / n) = .ok (.node (n :: d)) ∧
      fs.tree.get? (n :: d) = some .directory := by
  obtain ⟨l, hl, hdir⟩ := FileSystem.find_of_node hn h
  have he := hl
  rw [FileSystem.find_false_join hn] at he
  obtain ⟨d, hlead, rfl⟩ := FileSystem.lead_of_entry hn he
  exact ⟨d, hlead, FileSystem.locate_directory hl hdir, hdir⟩

theorem Standing.places {base : Path} {fs : FileSystem} (h : (under base).Standing fs) :
    ∃ d, fs.lead base = .ok (.node d) ∧
      (fs.find true (under base).root = .ok (.node (rootName :: d)) ∧
        fs.tree.get? (rootName :: d) = some .directory) ∧
      (fs.find true (under base).sessions = .ok (.node (sessionsName :: rootName :: d)) ∧
        fs.tree.get? (sessionsName :: rootName :: d) = some .directory) ∧
      fs.find true (under base).reports = .ok (.node (reportsName :: rootName :: d)) ∧
        fs.tree.get? (reportsName :: rootName :: d) = some .directory := by
  obtain ⟨d, hbase, hroot⟩ := place_of_linkStatus isEntryName_rootName.1 h.root
  have hlead := FileSystem.lead_of_find hroot.1
  have hbelow : ∀ {k}, IsName k → fs.linkStatus (base / rootName / k) = .ok .directory →
      fs.find true (base / rootName / k) = .ok (.node (k :: rootName :: d)) ∧
        fs.tree.get? (k :: rootName :: d) = some .directory := by
    intro k hk hs
    obtain ⟨d', hd', hfind⟩ := place_of_linkStatus hk hs
    rw [hlead] at hd'
    cases hd'
    exact hfind
  exact ⟨d, hbase, hroot, hbelow isEntryName_sessionsName.1 h.sessions,
    hbelow isEntryName_reportsName.1 h.reports⟩

theorem Standing.status {base : Path} {fs : FileSystem} (h : (under base).Standing fs) :
    ∀ p ∈ (under base).paths, fs.status p = .ok .directory := by
  obtain ⟨d, -, ⟨hroot, hdir⟩, ⟨hsessions, hdir₁⟩, hreports, hdir₂⟩ := h.places
  intro p hp
  rcases mem_paths.1 hp with rfl | rfl | rfl
  · exact FileSystem.node_of_find hroot hdir
  · exact FileSystem.node_of_find hsessions hdir₁
  · exact FileSystem.node_of_find hreports hdir₂

/-- The three directories stand at the places that the base spells out. -/
structure Layout (base : Path) (d : Loc) (fs : FileSystem) : Prop where
  spells : fs.Spells base d
  sessionsFit : (under base).sessions.byteSize ≤ pathMax
  reportsFit : (under base).reports.byteSize ≤ pathMax
  root : fs.tree.get? (rootName :: d) = some .directory
  sessions : fs.tree.get? (sessionsName :: rootName :: d) = some .directory
  reports : fs.tree.get? (reportsName :: rootName :: d) = some .directory

/-- The three directories are in the directory at `d`. -/
structure Furnished (d : Loc) (fs : FileSystem) : Prop where
  root : fs.tree.get? (rootName :: d) = some .directory
  sessions : fs.tree.get? (sessionsName :: rootName :: d) = some .directory
  reports : fs.tree.get? (reportsName :: rootName :: d) = some .directory

theorem Layout.furnished {base : Path} {d : Loc} {fs : FileSystem} (h : Layout base d fs) : Furnished d fs :=
  ⟨h.root, h.sessions, h.reports⟩

theorem Layout.base {base : Path} {d : Loc} {fs : FileSystem} (h : Layout base d fs) :
    fs.tree.get? d = some .directory := FileTree.get?_parent h.root

section
variable {base : Path} {d : Loc} {fs : FileSystem}

theorem Furnished.lead_root (h : Furnished d fs) (hbase : fs.lead base = .ok (.node d)) :
    fs.lead (under base).root = .ok (.node (rootName :: d)) := FileSystem.lead_join hbase h.root

theorem Furnished.lead_sessions (h : Furnished d fs) (hbase : fs.lead base = .ok (.node d)) :
    fs.lead (under base).sessions = .ok (.node (sessionsName :: rootName :: d)) :=
  FileSystem.lead_join (h.lead_root hbase) h.sessions

theorem Furnished.lead_reports (h : Furnished d fs) (hbase : fs.lead base = .ok (.node d)) :
    fs.lead (under base).reports = .ok (.node (reportsName :: rootName :: d)) :=
  FileSystem.lead_join (h.lead_root hbase) h.reports

theorem Layout.lead_base (h : Layout base d fs) : fs.lead base = .ok (.node d) := h.spells.lead h.base

theorem Layout.lead_root (h : Layout base d fs) : fs.lead (under base).root = .ok (.node (rootName :: d)) :=
  h.furnished.lead_root h.lead_base

theorem Layout.lead_sessions (h : Layout base d fs) :
    fs.lead (under base).sessions = .ok (.node (sessionsName :: rootName :: d)) :=
  h.furnished.lead_sessions h.lead_base

theorem Layout.lead_reports (h : Layout base d fs) :
    fs.lead (under base).reports = .ok (.node (reportsName :: rootName :: d)) :=
  h.furnished.lead_reports h.lead_base

end

theorem Layout.rootFits {base : Path} {d : Loc} {fs : FileSystem} (h : Layout base d fs) :
    (under base).root.byteSize ≤ pathMax := Vault.rootFits h.sessionsFit

theorem Standing.layout {base : Path} {fs : FileSystem} (h : (under base).Standing fs)
    (hp : fs.Plain base) : ∃ d, Layout base d fs := by
  obtain ⟨d, hbase, hroot, hsessions, hreports⟩ := h.places
  exact ⟨d, hp.spells hbase, (FileSystem.linkStatus_ok h.sessions).2, (FileSystem.linkStatus_ok h.reports).2,
    hroot.2, hsessions.2, hreports.2⟩

theorem standing_of_lead {base : Path} {d : Loc} {fs : FileSystem} (hbase : fs.lead base = .ok (.node d))
    (hs : (under base).sessions.byteSize ≤ pathMax) (hr : (under base).reports.byteSize ≤ pathMax)
    (hroot : fs.tree.get? (rootName :: d) = some .directory)
    (hsessions : fs.tree.get? (sessionsName :: rootName :: d) = some .directory)
    (hreports : fs.tree.get? (reportsName :: rootName :: d) = some .directory) :
    (under base).Standing fs := by
  have hreal : ∀ {p : Path} {n : String} {l : Loc}, (p / n).byteSize ≤ pathMax →
      fs.lead p = .ok (.node l) → fs.tree.get? (n :: l) = some .directory →
      fs.linkStatus (p / n) = .ok .directory := by
    intro p n l hfits hlead hdir
    exact FileSystem.node_of_find (FileSystem.find_of_get? hfits hlead hdir (by simp) false) hdir
  have hlead := FileSystem.lead_join hbase hroot
  exact ⟨hreal (Vault.rootFits hs) hbase hroot, hreal hs hlead hsessions, hreal hr hlead hreports⟩

theorem Layout.standing {base : Path} {d : Loc} {fs : FileSystem} (h : Layout base d fs) :
    (under base).Standing fs :=
  standing_of_lead h.lead_base h.sessionsFit h.reportsFit h.root h.sessions h.reports

/-- No directory has gone from the root or from right below it. -/
def KeepsLayout (d : Loc) (fs fs' : FileSystem) : Prop :=
  ∀ m, m = rootName :: d ∨ (∃ k, m = k :: rootName :: d) →
    fs.tree.get? m = some .directory → fs'.tree.get? m = some .directory

theorem Furnished.of_kept {d : Loc} {fs fs' : FileSystem} (h : Furnished d fs) (hkept : KeepsLayout d fs fs') :
    Furnished d fs' :=
  ⟨hkept _ (.inl rfl) h.root, hkept _ (.inr ⟨_, rfl⟩) h.sessions, hkept _ (.inr ⟨_, rfl⟩) h.reports⟩

/-- What keeps the three directories keeps the layout, wherever the working directory is. -/
theorem Layout.of_kept {base : Path} {d : Loc} {fs fs' : FileSystem} (h : Layout base d fs)
    (hcwd : fs'.cwd = .settle fs'.tree fs.cwd.place fs.cwd.lost) (hkept : KeepsLayout d fs fs') :
    Layout base d fs' := by
  obtain ⟨hroot, hsessions, hreports⟩ := h.furnished.of_kept hkept
  exact ⟨h.spells.settle hcwd (FileTree.get?_parent hroot), h.sessionsFit, h.reportsFit, hroot, hsessions,
    hreports⟩

theorem Layout.of_directories {base : Path} {d : Loc} {fs fs' : FileSystem} (h : Layout base d fs)
    (hcwd : fs'.cwd = fs.cwd)
    (hkept : ∀ m, fs.tree.get? m = some .directory → fs'.tree.get? m = some .directory) :
    Layout base d fs' := by
  refine h.of_kept ?_ fun m _ => hkept m
  rw [hcwd, WorkingDir.settle_of_directory (hkept _ fs.stands)]

theorem keepsLayout_of_clears {d place : Loc} {fs fs' : FileSystem} (hc : FileSystem.Clears place fs fs')
    (hroot : ¬ place <:+ rootName :: d) (hbelow : ∀ k, ¬ place <:+ k :: rootName :: d) :
    KeepsLayout d fs fs' := by
  intro m hm hdir
  rw [hc.kept m, hdir]
  rcases hm with rfl | ⟨k, rfl⟩
  · exact hroot
  · exact hbelow k

theorem keepsLayout_of_clears_below {d : Loc} {fs fs' : FileSystem} {k n : String}
    (hc : FileSystem.Clears (n :: k :: rootName :: d) fs fs') : KeepsLayout d fs fs' := by
  have hlong : ∀ {m : Loc}, m.length ≤ d.length + 2 → ¬ n :: k :: rootName :: d <:+ m := by
    intro m hm hs
    have := hs.length_le
    simp only [List.length_cons] at this
    omega
  exact keepsLayout_of_clears hc (hlong (by simp)) fun j => hlong (by simp)

theorem Layout.of_clears {base : Path} {d place : Loc} {fs fs' : FileSystem} (h : Layout base d fs)
    (hc : FileSystem.Clears place fs fs') (hroot : ¬ place <:+ rootName :: d)
    (hbelow : ∀ k, ¬ place <:+ k :: rootName :: d) : Layout base d fs' :=
  h.of_kept hc.cwd (keepsLayout_of_clears hc hroot hbelow)

theorem put_keeps (path : Path) (text : String) (h : Host) :
    (∀ m, h.files.tree.get? m = some .directory →
      ((put path text : StateM Host _).run h).2.files.tree.get? m = some .directory) ∧
      ((put path text : StateM Host _).run h).2.files.cwd = h.files.cwd := by
  rw [run_put]
  cases hw : h.files.write path text with
  | error e => exact ⟨fun _ hm => hm, rfl⟩
  | ok fs =>
    rcases FileSystem.write_cases hw with ⟨d, n, -, hc, rfl⟩ | ⟨l, old, -, hold, rfl⟩
    · have hg := FileSystem.grows_add hc (.file text)
      exact ⟨fun m => hg.tree m _, hg.cwd⟩
    · have hkeep : ∀ m, h.files.tree.get? m = some .directory →
          (h.files.tree.setText l text).get? m = some .directory := by
        intro m hm
        rw [FileTree.get?_setText hold, if_neg, hm]
        rintro rfl
        rw [hold] at hm
        cases hm
      exact ⟨hkeep, FileSystem.cwd_withTree (hkeep _ h.files.stands)⟩

theorem Layout.put {base : Path} {d : Loc} {h : Host} (hl : Layout base d h.files) (path : Path)
    (text : String) : Layout base d ((put path text : StateM Host _).run h).2.files :=
  hl.of_directories (put_keeps path text h).2 (put_keeps path text h).1

theorem Layout.answer {base : Path} {d : Loc} {h : Host} (hl : Layout base d h.files)
    (made : Except VaultError Path) (text? : Option String) :
    Layout base d ((answer made text? : StateM Host _).run h).2.files := by
  cases made with
  | error e => exact hl
  | ok path =>
    cases text? with
    | none => exact hl
    | some text => exact hl.put path text

theorem Layout.prepare {base : Path} {d : Loc} {h : Host} (hl : Layout base d h.files) {p : Path}
    {n : String} (hn : IsName n) : Layout base d ((Directory.prepare (p / n)).run.run h).2.files :=
  hl.of_directories (Directory.prepare_keepsDirectories hn rfl).cwd
    fun _ => (Directory.prepare_keepsDirectories hn rfl).dir

theorem Layout.sessionFile {base : Path} {d : Loc} {h : Host} (hl : Layout base d h.files)
    (id name : String) : Layout base d (((under base).sessionFile id name).run.run h).2.files := by
  by_cases hid : IsName id
  · rw [files_sessionFile hid]
    exact hl.prepare hid
  · rw [run_sessionFile_of_not_name hid, Host.files_note]
    exact hl

theorem Layout.of_clears_below {base : Path} {d : Loc} {fs fs' : FileSystem} (h : Layout base d fs)
    {k n : String} (hc : FileSystem.Clears (n :: k :: rootName :: d) fs fs') : Layout base d fs' :=
  h.of_kept hc.cwd (keepsLayout_of_clears_below hc)

theorem Layout.deleteSession {base : Path} {d : Loc} {h : Host} (hl : Layout base d h.files)
    (id : String) : Layout base d (((under base).deleteSession id).run h).2.files := by
  by_cases hid : IsName id
  · rw [run_deleteSession_of_name hid]
    refine hl.of_clears_below (n := id) (k := sessionsName) ?_
    rw [← Host.files_note h ⟨.trace, "FileStore: Deleting files of session: " ++ id⟩]
    apply Directory.removeTree_join hid
    rw [Host.files_note]
    exact hl.lead_sessions
  · rw [run_deleteSession_of_not_name hid, Host.files_note]
    exact hl

theorem Layout.deleteReport {base : Path} {d : Loc} {h : Host} (hl : Layout base d h.files)
    {id : String} (hid : IsName id) : Layout base d (((under base).deleteReport id).run h).2.files := by
  rcases deleteReport_cases (under base) id h with ⟨fs, -, -, hr, -, hfiles⟩ | ⟨-, -, hfiles⟩
  · obtain ⟨n, m, -, he, -, -, -, rfl⟩ := FileSystem.remove_ok hr
    rw [reportFile_untagged] at he
    obtain ⟨l, hlead, hm⟩ := FileSystem.lead_of_entry hid he
    rw [hl.lead_reports] at hlead
    cases hlead
    have hc := FileSystem.clears_prune h.files n m
    rw [hm] at hc
    rw [hfiles, hm]
    exact hl.of_clears_below hc
  · rw [hfiles]
    exact hl

theorem lead_legacy {base : Path} {d : Loc} {fs : FileSystem} (h : fs.lead base = .ok (.node d)) :
    fs.lead (under base).root.parent = .ok (.node d) :=
  (FileSystem.lead_parent_join isEntryName_rootName.1).trans h

theorem clears_cleanupLegacy {base : Path} {d : Loc} {h : Host}
    (hl : h.files.lead base = .ok (.node d)) : FileSystem.Clears (legacyName :: d) h.files
      (((under base).cleanupLegacy).run h).2.files := by
  rw [files_cleanupLegacy, legacyDir]
  exact Directory.removeTree_join isEntryName_legacyName.1 (lead_legacy hl)

theorem legacy_apart (d r : Loc) : ¬ legacyName :: d <:+ r ++ rootName :: d := by
  rintro ⟨s, hs⟩
  exact absurd (FileTree.head_eq_of_append_cons hs) (by decide)

theorem Layout.cleanupLegacy {base : Path} {d : Loc} {h : Host} (hl : Layout base d h.files) :
    Layout base d (((under base).cleanupLegacy).run h).2.files :=
  hl.of_clears (clears_cleanupLegacy hl.lead_base) (legacy_apart d []) fun k => legacy_apart d [k]

theorem Layout.anchored {base : Path} {d : Loc} {fs : FileSystem} (h : Layout base d fs) :
    fs.Anchored base rootName d := h.spells.anchored h.base isEntryName_rootName.1

theorem Free.layout {base : Path} {d : Loc} {fs : FileSystem} (h : Free base d fs)
    (hs : fs.Spells base d) : Layout base d (layOut fs d) := by
  refine ⟨hs.settle h.grows.settle (h.grows.tree _ _ h.dir), h.sessionsFit, h.reportsFit, ?_, ?_, ?_⟩
  all_goals
    rw [h.get?_layOut]
    simp

/-- Every call keeps the layout, but for the deletion of a report by an id that is no name. -/
theorem Layout.perform {base : Path} {d : Loc} {h : Host} (hl : Layout base d h.files) (call : Call)
    (hcall : ∀ id, call = .deleteReport id → IsName id) :
    Layout base d (((under base).perform call).run h).2.files := by
  rw [run_perform]
  cases call with
  | commonFile name text? =>
    refine Layout.answer ?_ _ text?
    rw [files_commonFile]
    exact hl.prepare (p := base) isEntryName_rootName.1
  | sessionFile id name text? => exact (hl.sessionFile id name).answer _ text?
  | reportFile kind id text? => exact hl.answer _ text?
  | write path text => exact hl.put path text
  | listCommon keep =>
    dsimp only
    rw [files_listCommon]
    exact hl
  | listSession id keep =>
    dsimp only
    rw [files_listSession]
    exact hl
  | openSessions =>
    dsimp only
    rw [files_openSessions]
    exact hl
  | listReports =>
    dsimp only
    rw [files_listReports]
    exact hl
  | deleteSession id => exact hl.deleteSession id
  | deleteReport id => exact hl.deleteReport (hcall id rfl)
  | cleanupLegacy =>
    dsimp only
    exact hl.cleanupLegacy
  | deleteAll =>
    obtain ⟨hc, -, hfree, h', hrun, hfiles⟩ := deleteAll_anchored hl.anchored hl.sessionsFit hl.reportsFit
    dsimp only
    rw [hrun]
    dsimp only
    rw [hfiles]
    exact hfree.layout (hl.spells.settle hc.cwd hfree.dir)

theorem Layout.runCalls {base : Path} {d : Loc} {calls : List Call}
    (hcalls : ∀ id, .deleteReport id ∈ calls → IsName id) :
    ∀ {h : Host}, Layout base d h.files → Layout base d (((under base).runCalls calls).run h).2.files := by
  induction calls with
  | nil => exact fun hl => hl
  | cons call calls ih =>
    intro h hl
    have hfirst := hl.perform call fun id he => hcalls id (he ▸ List.mem_cons_self)
    exact ih (fun id hid => hcalls id (List.mem_cons_of_mem _ hid)) hfirst

/-- The names, ids and paths that a call is given. -/
def Call.texts : Call → List String
  | .commonFile name _ => [name]
  | .sessionFile id name _ => [id, name]
  | .reportFile _ id _ => [id]
  | .write path _ => [path.text]
  | .listSession id _ => [id]
  | .deleteSession id => [id]
  | .deleteReport id => [id]
  | .listCommon _ | .openSessions | .listReports | .cleanupLegacy | .deleteAll => []

/-- The paths that a call starts from; whatever else it looks up is found below these. -/
def Call.paths (v : Vault) : Call → List Path
  | .commonFile name _ => [v.root, v.root / name]
  | .sessionFile id name _ => [v.sessionDir id, v.sessionDir id / name]
  | .reportFile kind id _ => [v.reportFile kind id]
  | .write path _ => [path]
  | .listCommon _ => [v.root]
  | .listSession id _ => [v.sessionDir id]
  | .openSessions => [v.sessions]
  | .listReports => [v.reports]
  | .deleteSession id => [v.sessionDir id]
  | .deleteReport id => [v.reportFile .untagged id]
  | .cleanupLegacy => [v.legacyDir]
  | .deleteAll => v.paths

theorem Call.paths_nulFree {v : Vault} (hv : ∀ p ∈ v.paths, NulFree p.text) {call : Call}
    (hcall : ∀ text ∈ call.texts, NulFree text) : ∀ p ∈ call.paths v, NulFree p.text := by
  have hroot := hv _ v.root_mem
  have hsession (id : String) (hid : NulFree id) : NulFree (v.sessionDir id).text :=
    Path.nulFree_join (hv _ v.sessions_mem) hid
  cases call with
  | deleteAll => exact hv
  | cleanupLegacy =>
    have hlegacy : NulFree v.legacyDir.text := Path.nulFree_join (Path.nulFree_parent hroot) (by decide)
    simpa [paths] using hlegacy
  | commonFile name text? =>
    simp only [texts, paths, List.mem_cons, List.not_mem_nil, or_false, forall_eq, forall_eq_or_imp] at hcall ⊢
    exact ⟨hroot, Path.nulFree_join hroot hcall⟩
  | sessionFile id name text? =>
    simp only [texts, paths, List.mem_cons, List.not_mem_nil, or_false, forall_eq, forall_eq_or_imp] at hcall ⊢
    exact ⟨hsession id hcall.1, Path.nulFree_join (hsession id hcall.1) hcall.2⟩
  | reportFile kind id text? => simpa [paths] using reportFile_nulFree hv kind (by simpa [texts] using hcall)
  | deleteReport id => simpa [paths] using reportFile_nulFree hv .untagged (by simpa [texts] using hcall)
  | write path text => simpa [texts, paths] using hcall
  | listSession id keep => simpa [paths] using hsession id (by simpa [texts] using hcall)
  | deleteSession id => simpa [paths] using hsession id (by simpa [texts] using hcall)
  | listCommon keep => simpa [paths] using hroot
  | openSessions => simpa [paths] using hv _ v.sessions_mem
  | listReports => simpa [paths] using hv _ v.reports_mem

end Vault
end CrashVault
